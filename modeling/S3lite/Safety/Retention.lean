/-
  S3lite.Safety.Retention — the default retention of a bucket and the objects created in it.

  - `put_keeps_default`: an object PUT without lock headers is retained for the bucket's
    days, counted from the request or later; one with a lock header gets the lock of its
    headers alone, and a copy none.
  - `default_retention_is_dropped`: so a header for the legal hold alone loses the default.
-/
import S3lite.Safety.Pool
import S3lite.Server.Effects

namespace S3lite

open Handler

/-! ## Default retention -/

/-- The request has neither header for a retention. -/
def NoRetentionHeader (headers : HeaderMap) : Prop :=
  headerString headers (str "x-amz-object-lock-mode") = none ∧
    headerString headers (str "x-amz-object-lock-retain-until-date") = none

/-- The bucket in which the request creates an object, when it sets no retention itself. -/
inductive Request.CreatesPlain : Request → Str → Prop
  | put {bucket key : Str} {headers : HeaderMap} {body : Bytes} : NoRetentionHeader headers →
      CreatesPlain (.putObject bucket key headers body) bucket
  | copy {bucket key : Str} {source : CopySource} {headers : HeaderMap} : NoRetentionHeader headers →
      CreatesPlain (.copyObject bucket key source headers) bucket
  | complete {bucket key uploadId : Str} {body : Bytes} :
      CreatesPlain (.completeMultipartUpload bucket key uploadId body) bucket

/-- The bucket retains what is created in it for some days by default. -/
def RetainsFor (db : Db) (bucket : Str) (days : Nat) : Prop :=
  ∃ cfg l d, db.buckets.get bucket = some cfg ∧ cfg.objectLock = some l ∧ l.enabled = true ∧ l.defaultRetention = some d ∧
    d.length = some days

/-- What the request creates is retained for the bucket's days, counted from any time that
    the clock does not go below from the request on. -/
def KeepsDefault (env : Env) (w : World) (bucket : Str) (r : Request) : Prop :=
  ∀ days t, RetainsFor w.db bucket days → (∀ n, w.clock ≤ n → t ≤ env.now n) → ∀ k m,
    (run env (r.handler env) w).2.db.objects.get k = some m → m.state = .committed → m.kind = .object →
      w.db.objects.get k ≠ some m →
        ∃ lock retention, m.objectLock = some lock ∧ lock.retention = some retention ∧
          t + days * nanosPerDay ≤ retention.retainUntil

theorem defaultLockAt_eq {db : Db} {bucket : Str} {days : Nat} (h : RetainsFor db bucket days) {cfg : BucketConfig}
    (hcfg : db.buckets.get bucket = some cfg) (now : Time) :
    ∃ mode, defaultLockAt cfg.objectLock now = some ⟨some ⟨mode, now + days * nanosPerDay⟩, false⟩ := by
  obtain ⟨cfg', l, d, hcfg', hlock, henabled, hd, hlen⟩ := h
  rw [hcfg] at hcfg'
  cases hcfg'
  refine ⟨d.mode, ?_⟩
  unfold defaultLockAt
  rw [hlock, Option.bind_some, if_pos henabled, hd, Option.bind_some, hlen]
  rfl

/-- The request sets a header of a lock. -/
def SetsLock (headers : HeaderMap) : Prop :=
  ¬ (NoRetentionHeader headers ∧ headerString headers (str "x-amz-object-lock-legal-hold") = none)

/-- A row that the request created or replaced. -/
def NewRow (env : Env) (w : World) (r : Request) (m : Manifest) : Prop :=
  ∃ k, (run env (r.handler env) w).2.db.objects.get k = some m ∧ w.db.objects.get k ≠ some m

section
variable {env : Env} {w : World} {bucket key : Str} {headers : HeaderMap} {body : Bytes} {m : Manifest}

theorem bind_ne_ok {α β : Type} {b : β} (x : Except S3Error α) {f : α → Except S3Error β} (h : ∀ a, f a ≠ .ok b) :
    (x >>= f) ≠ .ok b := by
  cases x with
  | error e => exact fun h => by cases h
  | ok a => exact h a

/-- Lock headers that are accepted make a lock. -/
theorem parseLockHeaders_ne_none (h : SetsLock headers) : parseLockHeaders env headers ≠ .ok none := by
  unfold parseLockHeaders
  dsimp only
  rw [if_neg fun hnone => h ⟨⟨hnone.1, hnone.2.1⟩, hnone.2.2⟩]
  split
  · refine bind_ne_ok _ fun mode => ?_
    split
    · refine bind_ne_ok _ fun retention => ?_
      repeat' split
      all_goals simp
    · intro hok
      cases hok
  · refine bind_ne_ok _ fun retention => ?_
    repeat' split
    all_goals simp
  · intro hok
    cases hok

/-- The one row of a PUT is the manifest it has made of its request. -/
theorem newRow_putObject (h : NewRow env w (.putObject bucket key headers body) m) : ∃ w1, PutReady env w bucket key headers body m w1 := by
  obtain ⟨k, hm, hnew⟩ := h
  have hspec : Ensures env (putObject env bucket key headers body) w _ _ := ensures_putObject bucket key headers body
  unfold Ensures at hspec
  have hm : (run env (putObject env bucket key headers body) w).2.db.objects.get k = some m := hm
  split at hspec
  · rename_i resp w' hrun
    obtain ⟨stored, w1, hready, hputs⟩ := hspec
    rw [hrun, hputs.objects.1, hready.db, Table.get_insert] at hm
    split at hm
    · cases hm
      exact ⟨w1, hready⟩
    · exact absurd hm hnew
  · rename_i e w' hrun
    rw [hrun, hspec.db] at hm
    exact absurd hm hnew

/-- The one row of a COPY is the copied manifest. -/
theorem newRow_copyObject {source : CopySource} (h : NewRow env w (.copyObject bucket key source headers) m) :
    ∃ src k now, m = copyManifest src k headers now := by
  obtain ⟨k, hm, hnew⟩ := h
  have hspec : Ensures env (copyObject env bucket key source headers) w _ _ := ensures_copyObject bucket key source headers
  unfold Ensures at hspec
  have hm : (run env (copyObject env bucket key source headers) w).2.db.objects.get k = some m := hm
  split at hspec
  · rename_i resp w' hrun
    obtain ⟨cfg, src, n, w1, -, -, hready, hputs⟩ := hspec
    rw [hrun, hputs.objects.1, hready.db, Table.get_insert] at hm
    split at hm
    · cases hm
      exact ⟨src, _, _, rfl⟩
    · exact absurd hm hnew
  · rename_i e w' hrun
    rw [hrun, hspec.1] at hm
    exact absurd hm hnew

end

/-- In every state an object PUT without lock headers gets the default retention; one with lock
    headers gets their lock and no other, and a copy gets none. -/
theorem put_keeps_default (env : Env) (w : World) (bucket key : Str) (headers : HeaderMap) (body : Bytes) :
    (¬ SetsLock headers → KeepsDefault env w bucket (.putObject bucket key headers body)) ∧
      (SetsLock headers → ∀ m, NewRow env w (.putObject bucket key headers body) m →
        ∃ lock, parseLockHeaders env headers = .ok (some lock) ∧ m.objectLock = some lock) ∧
      ∀ source m, NewRow env w (.copyObject bucket key source headers) m → m.objectLock = none := by
  refine ⟨fun hnone days t hdays ht k m hm _ _ hnew => ?_, fun hset m hm => ?_, fun source m hm => ?_⟩
  · obtain ⟨w1, hready⟩ := newRow_putObject ⟨k, hm, hnew⟩
    obtain ⟨cfg, headerLock, lock, tags, checksum, n, hcfg, -, hheader, hlock, -, -, rfl⟩ := hready.manifest
    obtain ⟨hretention, hhold⟩ := not_not.mp hnone
    have hplain : parseLockHeaders env headers = .ok none := by
      unfold parseLockHeaders
      rw [hretention.1, hretention.2, hhold]
      rfl
    rw [hplain] at hheader
    cases hheader
    obtain ⟨n', hn', rfl⟩ := hlock
    obtain ⟨mode, hdefault⟩ := defaultLockAt_eq hdays hcfg (env.now n')
    refine ⟨_, _, hdefault, rfl, ?_⟩
    exact Int.add_le_add_right (ht n' hn') _
  · obtain ⟨w1, hready⟩ := newRow_putObject hm
    obtain ⟨cfg, headerLock, lock, tags, checksum, n, -, -, hheader, hlock, -, -, rfl⟩ := hready.manifest
    cases headerLock with
    | none => exact absurd hheader (parseLockHeaders_ne_none hset)
    | some l => exact ⟨l, hheader, hlock⟩
  · obtain ⟨src, k, now, rfl⟩ := newRow_copyObject hm
    rfl

/-- An environment that parses one configuration of Object Lock: 30 days. -/
def lockEnv : Env :=
  { sampleEnv with
    xmlObjectLock := fun b =>
      if b = str "<ObjectLockConfiguration><ObjectLockEnabled>Enabled</ObjectLockEnabled><Rule><DefaultRetention><Mode>COMPLIANCE</Mode><Days>30</Days></DefaultRetention></Rule></ObjectLockConfiguration>" then
        .ok ⟨some (str "Enabled"), some (some ⟨some (str "COMPLIANCE"), some 30, none⟩)⟩
      else .error [] }

/-- A bucket with Object Lock and a default retention of 30 days. -/
def lockedBucket : List Event :=
  [.request 0 (.createBucket (str "bucket") [(str "x-amz-bucket-object-lock-enabled", str "true")]), .steps 0 2,
    .request 0 (.putBucketObjectLock (str "bucket") (str "<ObjectLockConfiguration><ObjectLockEnabled>Enabled</ObjectLockEnabled><Rule><DefaultRetention><Mode>COMPLIANCE</Mode><Days>30</Days></DefaultRetention></Rule></ObjectLockConfiguration>")),
    .steps 0 2]

def retains30 (db : Db) : Bool :=
  (db.buckets.get (str "bucket")).any fun cfg => cfg.objectLock.any fun l =>
    l.enabled && l.defaultRetention.any fun d => decide (d.length = some 30)

theorem retainsFor_of_check {db : Db} (h : retains30 db = true) : RetainsFor db (str "bucket") 30 := by
  unfold retains30 at h
  obtain ⟨cfg, hcfg, h⟩ := (Option.any_eq_true _ _).mp h
  obtain ⟨l, hl, h⟩ := (Option.any_eq_true _ _).mp h
  obtain ⟨henabled, h⟩ := Bool.and_eq_true_iff.mp h
  obtain ⟨d, hd, h⟩ := (Option.any_eq_true _ _).mp h
  exact ⟨cfg, l, d, hcfg, hl, henabled, hd, of_decide_eq_true h⟩

theorem put_keeps_default_30_days : ∃ c, Running lockEnv (Serves lockEnv) (fun _ _ _ => True) c ∧
    RetainsFor c.world.db (str "bucket") 30 ∧
      KeepsDefault lockEnv c.world (str "bucket") (.putObject (str "bucket") (str "k") [] (str "a")) := by
  apply running_reaches 1 lockedBucket (fun _ _ _ => true) fun c => retains30 c.world.db
  · exact fun _ _ _ _ _ => trivial
  · rfl
  · decide +kernel
  · intro c hc hq
    exact ⟨retainsFor_of_check hq, (put_keeps_default _ _ _ _ _ _).1 (not_not.mpr ⟨⟨by rfl, by rfl⟩, by rfl⟩)⟩

/-- A PUT with only the header for the legal hold. -/
def holdOnly : Request :=
  .putObject (str "bucket") (str "k") [(str "x-amz-object-lock-legal-hold", str "OFF")] (str "a")

theorem default_retention_is_dropped : ¬ ∀ c, Running lockEnv (ServesOnly lockEnv (fun _ => true) false) (fun _ _ _ => True) c →
    ∀ r bucket, r.WellFormed → r.CreatesPlain bucket → KeepsDefault lockEnv c.world bucket r := by
  apply running_refutes 1 lockedBucket (fun _ _ _ => true) fun c =>
    retains30 c.world.db && c.world.db.objects.rows.isEmpty &&
      (run lockEnv (holdOnly.handler lockEnv) c.world).2.db.objects.rows.any fun r =>
        decide (r.2.state = .committed) && decide (r.2.kind = .object) && r.2.objectLock.all (·.retention.isNone)
  · exact fun _ _ _ _ _ => trivial
  · rfl
  · decide +kernel
  · intro c hq hall
    simp only [Bool.and_eq_true, List.any_eq_true, decide_eq_true_eq] at hq
    obtain ⟨⟨hdays, hempty⟩, r, hr, ⟨hstate, hkind⟩, hnone⟩ := hq
    have hnew : c.world.db.objects.get r.1 ≠ some r.2 := by
      intro h
      have := Table.mem_rows.mpr h
      rw [List.isEmpty_iff.mp hempty] at this
      cases this
    obtain ⟨lock, retention, hlock, hretention, -⟩ := hall holdOnly (str "bucket") (by decide)
      (.put ⟨by rfl, by rfl⟩) 30 (c.world.clock : Time) (retainsFor_of_check hdays)
      (fun n hn => Int.ofNat_le.mpr hn) r.1 r.2 (Table.get_of_mem hr) hstate hkind hnew
    rw [hlock, Option.all_some, hretention] at hnone
    cases hnone

end S3lite
