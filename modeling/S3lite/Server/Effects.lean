/-
  S3lite.Server.Effects — what the handlers that write rows do when run alone.

  Up to its transaction a handler only reads, draws and hashes (`Quiet` steps leave both
  stores alone); the transaction changes the rows; what it freed is collected.
  - `ensures_putObject`, `ensures_copyObject`, `ensures_insertDeleteMarker`,
    `ensures_expireCurrent`: the manifest stored, and that nothing is stored otherwise.
  - `ensures_removeManifest`: the row removed.
  - `ensures_completeMultipartUpload`: the upload replaced by the object.
-/
import S3lite.Server.Alone
import S3lite.Server.Requests

namespace S3lite

open Handler

variable {env : Env} {w : World}

/-! ## Steps that leave the stores alone -/

/-- The world at a later time. -/
structure Later (w w' : World) : Prop where
  db : w'.db = w.db
  files : w'.files = w.files
  uuids : w'.uuids = w.uuids
  clock : w.clock ≤ w'.clock

theorem Later.refl (w : World) : Later w w := ⟨rfl, rfl, rfl, le_rfl⟩

theorem Later.trans {w w' w'' : World} (h : Later w w') (h' : Later w' w'') : Later w w'' :=
  ⟨h'.db.trans h.db, h'.files.trans h.files, h'.uuids.trans h.uuids, h.clock.trans h'.clock⟩

theorem later_read {o : MetaOp} (h : (o.exec (env.now w.clock) (env.now (w.clock + 1)) w.db).2 = w.db) :
    Later w (exec env (.metaOp o) w).2 := ⟨h, rfl, rfl, Nat.le_add_right ..⟩

theorem later_now : Later w (exec env .nowUtc w).2 := ⟨rfl, rfl, rfl, Nat.le_add_right ..⟩

def Quiet {α : Type} (env : Env) (x : Handler α) : Prop :=
  ∀ w, Ensures env x w (fun _ w' => Later w w') fun _ w' => Later w w'

theorem Quiet.ensures {α : Type} {x : Handler α} (h : Quiet env x) {Q : α → World → Prop} {E : Failure → World → Prop}
    (hq : ∀ a w', Later w w' → Q a w') (he : ∀ e w', Later w w' → E e w') : Ensures env x w Q E := (h w).mono hq he

theorem quiet_ok {α : Type} (a : α) : Quiet env (ok a) := fun w => Later.refl w

theorem quiet_bind {α β : Type} {x : Handler α} {f : α → Handler β} (hx : Quiet env x) (hf : ∀ a, Quiet env (f a)) :
    Quiet env (x >>= f) := by
  intro w
  rw [ensures_bind]
  exact hx.ensures (fun a w1 h1 => (hf a).ensures (fun _ _ h2 => h1.trans h2) fun _ _ h2 => h1.trans h2) fun _ _ h1 => h1

theorem quiet_ensure (p : Prop) [Decidable p] (e : S3Error) : Quiet env (ensure p e) := by
  intro w
  rw [ensures_ensure]
  exact ⟨fun _ => .refl w, fun _ => .refl w⟩

theorem quiet_orFail {α : Type} (o : Option α) (e : S3Error) : Quiet env (orFail o e) := by
  intro w
  rw [ensures_orFail]
  exact ⟨fun _ _ => .refl w, fun _ => .refl w⟩

theorem quiet_ofExcept {α : Type} (r : Except S3Error α) : Quiet env (ofExcept r) := by
  intro w
  rw [ensures_ofExcept]
  exact ⟨fun _ _ => .refl w, fun _ _ => .refl w⟩

theorem quiet_etagOf (m : Manifest) : Quiet env (etagOf env m) := by
  intro w
  unfold etagOf
  split <;> exact Later.refl w

theorem quiet_existingMatches (existing : Option Manifest) (raw : Str) : Quiet env (existingMatches env existing raw) := by
  unfold existingMatches
  split
  · exact quiet_ok _
  · exact quiet_bind (quiet_etagOf _) fun _ => quiet_ok _

theorem quiet_checkIfMatch (bucket key : Str) (existing : Option Manifest) (im : Option Str) :
    Quiet env (checkIfMatch env bucket key existing im) := by
  unfold checkIfMatch
  split
  · exact quiet_ok _
  · exact quiet_bind (quiet_existingMatches _ _) fun _ => quiet_ensure _ _

theorem quiet_checkIfNoneMatch (bucket key : Str) (existing : Option Manifest) (inm : Option Str) :
    Quiet env (checkIfNoneMatch env bucket key existing inm) := by
  unfold checkIfNoneMatch
  split
  · exact quiet_ok _
  · exact quiet_bind (quiet_existingMatches _ _) fun _ => quiet_ensure _ _

theorem quiet_getManifest (key : ManifestKey) : Quiet env (op (.metaOp (.getManifest key))) := fun _ => later_read rfl

theorem quiet_getLatestVersion (bucket key : Str) : Quiet env (op (.metaOp (.getLatestVersion bucket key))) :=
  fun _ => later_read rfl

theorem quiet_checkPutPreconditions (bucket key : Str) (headers : HeaderMap) :
    Quiet env (checkPutPreconditions env bucket key headers) := by
  unfold checkPutPreconditions
  simp only
  split
  · exact quiet_ok _
  · exact quiet_bind (quiet_getManifest _) fun _ =>
      quiet_bind (quiet_checkIfMatch _ _ _ _) fun _ => quiet_checkIfNoneMatch _ _ _ _

theorem quiet_lookupVersion (bucket key : Str) (versionId : Option Str) : Quiet env (lookupVersion bucket key versionId) := by
  cases versionId with
  | none => exact quiet_getLatestVersion _ _
  | some vid => exact quiet_getManifest _

theorem quiet_resolveSource (source : CopySource) : Quiet env (resolveSource source) :=
  quiet_bind (quiet_lookupVersion _ _ _) fun _ => quiet_orFail _ _

theorem quiet_checkNotLocked (bucket key : Str) (m : Option Manifest) : Quiet env (checkNotLocked bucket key m) := by
  unfold checkNotLocked
  split
  · exact quiet_ok _
  · exact quiet_bind (fun _ => later_now) fun _ => quiet_ensure _ _

/-! ## Version ids and locks -/

/-- `next_version_id` -/
def versionIdFor (env : Env) (w : World) : VersioningState → Str
  | .enabled => env.uuid w.uuids
  | .off | .suspended => nullVersionId

def drawsFor : VersioningState → Nat
  | .enabled => 1
  | .off | .suspended => 0

@[simp] theorem ensures_nextVersionId {v : VersioningState} {Q : Str → World → Prop} {E : Failure → World → Prop} :
    Ensures env (nextVersionId v) w Q E ↔ Q (versionIdFor env w v) { w with uuids := w.uuids + drawsFor v } := by
  cases v <;> exact Iff.rfl

@[simp] theorem ensures_requireBucket {bucket : Str} {Q : BucketConfig → World → Prop} {E : Failure → World → Prop} :
    Ensures env (requireBucket bucket) w Q E ↔
      (∀ cfg, w.db.buckets.get bucket = some cfg → Q cfg { w with clock := w.clock + 2 }) ∧
        (w.db.buckets.get bucket = none → E (.error (noSuchBucket bucket)) { w with clock := w.clock + 2 }) := by
  unfold requireBucket
  rw [ensures_bind, ensures_op, ensures_orFail]
  exact Iff.rfl

/-- The default retention of a bucket, counted from a time. -/
def defaultLockAt (cfg : Option ObjectLockConfig) (now : Time) : Option ObjectLock :=
  (cfg.bind fun c => if c.enabled then c.defaultRetention else none).bind fun d =>
    d.length.map fun days => ⟨some ⟨d.mode, now + days * nanosPerDay⟩, false⟩

/-- The lock a PUT chooses, with the clock at `n` or later. -/
def ChoosesLock (env : Env) (n : Nat) (cfg : Option ObjectLockConfig) (headerLock lock : Option ObjectLock) : Prop :=
  match headerLock with
  | some l => lock = some l
  | none => ∃ n' ≥ n, lock = defaultLockAt cfg (env.now n')

theorem ensures_lockForPut {cfg : Option ObjectLockConfig} {headerLock : Option ObjectLock} {Q : Option ObjectLock → World → Prop}
    {E : Failure → World → Prop}
    (hq : ∀ lock w', Later w w' → ChoosesLock env w.clock cfg headerLock lock → Q lock w') (he : ∀ e w', Later w w' → E e w') :
    Ensures env (lockForPut cfg headerLock) w Q E := by
  cases headerLock with
  | some l => exact hq _ w (.refl w) rfl
  | none =>
    show Ensures env (defaultLockForBucket cfg) w Q E
    unfold defaultLockForBucket
    cases hd : cfg.bind fun c => if c.enabled then c.defaultRetention else none with
    | none => exact hq none w (.refl w) ⟨w.clock, le_rfl, by unfold defaultLockAt; rw [hd]; rfl⟩
    | some d =>
      simp only [ensures_bind, ensures_op]
      have hdefault : ∀ lock, lock = (d.length.map fun days => (⟨some ⟨d.mode, env.now w.clock + days * nanosPerDay⟩, false⟩ : ObjectLock)) →
          ChoosesLock env w.clock cfg none lock := by
        rintro lock rfl
        exact ⟨w.clock, le_rfl, by unfold defaultLockAt; rw [hd]; rfl⟩
      cases hlen : d.length with
      | none => exact hq none _ later_now (hdefault _ (by rw [hlen]; rfl))
      | some days =>
        simp only [ensures_bind]
        unfold addDays
        simp only
        split
        · exact hq _ _ later_now (hdefault _ (by rw [hlen]; rfl))
        · exact he _ _ later_now

/-! ## Storing a manifest -/

theorem commit_ok_inv {α : Type} {db : Db} {r : Except MetaError (α × Db)} {a : α} (h : (commit db r).1 = .ok a) :
    r = .ok (a, (commit db r).2) := by
  cases r with
  | ok r => cases h; rfl
  | error e => cases h

theorem commit_error_inv {α : Type} {db : Db} {r : Except MetaError (α × Db)} {e : MetaError}
    (h : (commit db r).1 = .error e) : r = .error e ∧ (commit db r).2 = db := by
  cases r with
  | ok r => cases h
  | error e' => cases h; exact ⟨rfl, rfl⟩

/-- From `w` to `w'` the manifest was stored and what that freed was collected. -/
def Puts (env : Env) (m : Manifest) (w w' : World) : Prop :=
  ∃ effect db', handlePutManifest w.db (env.now w.clock) m = .ok (effect, db') ∧
    Collected effect.freedParts { w with db := db', clock := w.clock + 2 } w'

theorem Puts.objects {m : Manifest} {w' : World} (h : Puts env m w w') :
    w'.db.objects = w.db.objects.insert m.key.encode m ∧ w'.db.buckets = w.db.buckets := by
  obtain ⟨effect, db', hput, hgc⟩ := h
  obtain ⟨parts, -, -, rfl⟩ := put_ok hput
  exact ⟨hgc.objects, hgc.buckets⟩

/-- The last steps of the handlers that store a manifest. -/
theorem ensures_putAndCollect {m : Manifest} {Q : World → Prop} {E : Failure → World → Prop}
    (hq : ∀ w', Puts env m w w' → Q w') (he : ∀ e, E (.error (mapMetaErr e)) { w with clock := w.clock + 2 }) :
    Ensures env (op (.metaOp (.putManifest m))) w (fun r w => Ensures env (mapErr mapMetaErr r) w
      (fun effect w => Ensures env (gcFreedParts effect.freedParts) w (fun _ w => Q w) E) E) E := by
  simp only [ensures_op, ensures_mapErr]
  constructor
  · intro effect h
    have hput := commit_ok_inv h
    exact (ensures_gcFreedParts effect.freedParts).mono (fun _ w' hgc => hq w' ⟨effect, _, hput, hgc⟩) fun _ _ h => h
  · intro e h
    have := he e
    rw [← (commit_error_inv h).2] at this
    exact this

/-! ## PUT -/

/-- What a PUT has made of its request when it stores the manifest. -/
structure PutReady (env : Env) (w : World) (bucket key : Str) (headers : HeaderMap) (body : Bytes) (m : Manifest)
    (w1 : World) : Prop where
  db : w1.db = w.db
  files : w1.files = (writePart env w.files body).2
  clock : w.clock ≤ w1.clock
  manifest : ∃ cfg headerLock lock tags checksum n, w.db.buckets.get bucket = some cfg ∧
    w1.uuids = w.uuids + drawsFor cfg.versioning ∧ parseLockHeaders env headers = .ok headerLock ∧
    ChoosesLock env w.clock cfg.objectLock headerLock lock ∧ w.clock ≤ n ∧ n < w1.clock ∧
    m = singlePutManifest ⟨bucket, key, versionIdFor env w cfg.versioning⟩ (writeResult env body) headers tags checksum lock
      (env.now n)

/-- Nothing was stored; the bytes of the request may be. -/
structure Refused (env : Env) (body : Bytes) (w w' : World) : Prop where
  db : w'.db = w.db
  files : w'.files = w.files ∨ w'.files = (writePart env w.files body).2
  clock : w.clock ≤ w'.clock

theorem ensures_putObject (bucket key : Str) (headers : HeaderMap) (body : Bytes) :
    Ensures env (putObject env bucket key headers body) w
      (fun _ w' => ∃ m w1, PutReady env w bucket key headers body m w1 ∧ Puts env m w1 w') fun _ w' => Refused env body w w' := by
  unfold putObject
  simp only [ensures_bind, ensures_requireBucket, ensures_ofExcept, ensures_ensure]
  refine ⟨fun cfg hcfg => ?_, fun _ => ⟨rfl, Or.inl rfl, Nat.le_add_right ..⟩⟩
  have hcheck : Quiet env (checkPutPreconditions env bucket key headers) := quiet_checkPutPreconditions bucket key headers
  have hstart : ∀ {w1}, Later { w with clock := w.clock + 2 } w1 → Later w w1 := fun h =>
    ⟨h.db, h.files, h.uuids, le_trans (Nat.le_add_right ..) h.clock⟩
  have hearly : ∀ {w1}, Later { w with clock := w.clock + 2 } w1 → Refused env body w w1 := fun h =>
    ⟨h.db, Or.inl h.files, (hstart h).clock⟩
  refine hcheck.ensures (fun _ w1 h1 => ?_) fun _ w1 h1 => hearly h1
  refine ⟨fun expected _ => ⟨fun _ => ?_, fun _ => hearly h1⟩, fun _ _ => hearly h1⟩
  refine ⟨fun checksum _ => ⟨fun _ _ => ?_, fun _ _ => hearly h1⟩, fun _ _ => hearly h1⟩
  -- from here on the bytes are stored
  rw [ensures_op, ensures_nextVersionId]
  obtain ⟨w2, hw2⟩ : ∃ w2, w2 = ({ (exec env (.writeBytes body) w1).2 with
      uuids := (exec env (.writeBytes body) w1).2.uuids + drawsFor cfg.versioning } : World) := ⟨_, rfl⟩
  have hfiles : w2.files = (writePart env w.files body).2 := by
    rw [hw2]
    show (writePart env w1.files body).2 = _
    rw [h1.files]
  have hdb : w2.db = w.db := by rw [hw2]; exact h1.db
  have huuids : w2.uuids = w.uuids + drawsFor cfg.versioning := by
    rw [hw2]
    show w1.uuids + _ = _
    rw [h1.uuids]
  have hclock : w.clock ≤ w2.clock := by rw [hw2]; exact (hstart h1).clock
  have hversion : versionIdFor env (exec env (.writeBytes body) w1).2 cfg.versioning = versionIdFor env w cfg.versioning := by
    have huuid : (exec env (.writeBytes body) w1).2.uuids = w.uuids := h1.uuids
    unfold versionIdFor
    rw [huuid]
  have hlate : ∀ {w3}, Later w2 w3 → Refused env body w w3 := fun h =>
    ⟨h.db.trans hdb, Or.inr (h.files.trans hfiles), hclock.trans h.clock⟩
  have hresult : (exec env (.writeBytes body) w1).1 = writeResult env body := rfl
  rw [← hw2, hversion, hresult]
  refine ⟨fun tags _ => ⟨fun headerLock hheader => ?_, fun _ _ => hlate (.refl w2)⟩, fun _ _ => hlate (.refl w2)⟩
  refine ensures_lockForPut (fun lock w3 h3 hlock => ?_) fun _ w3 h3 => hlate h3
  rw [ensures_op]
  have h4 : Later w2 (exec env .nowUtc w3).2 := h3.trans later_now
  refine (quiet_etagOf _).ensures (fun etag w5 h5 => ?_) fun _ w5 h5 => hlate (h4.trans h5)
  have h5' := h4.trans h5
  have hn : w3.clock < w5.clock := lt_of_lt_of_le (Nat.lt_succ_self _) h5.clock
  have hready : PutReady env w bucket key headers body (singlePutManifest
      ⟨bucket, key, versionIdFor env w cfg.versioning⟩ (writeResult env body) headers tags checksum lock (env.now w3.clock)) w5 := by
    refine ⟨h5'.db.trans hdb, h5'.files.trans hfiles, hclock.trans h5'.clock, cfg, headerLock, lock, tags, checksum,
      w3.clock, hcfg, h5'.uuids.trans huuids, ?_, ?_, hclock.trans h3.clock, hn, rfl⟩
    · cases hp : parseLockHeaders env headers with
      | error e => rw [hp] at hheader; cases hheader
      | ok l => rw [hp] at hheader; cases hheader; rfl
    · cases headerLock with
      | some l => exact hlock
      | none =>
        obtain ⟨n', hn', he⟩ := hlock
        exact ⟨n', hclock.trans hn', he⟩
  refine ensures_putAndCollect (fun w' hputs => ⟨_, w5, hready, hputs⟩) fun e => ?_
  exact hlate ⟨h5'.db, h5'.files, h5'.uuids, h5'.clock.trans (Nat.le_add_right ..)⟩

/-! ## COPY and delete markers -/

/-- The world when a handler that has drawn a version id stores its manifest, the clock read
    at `n` on the way. -/
structure Ready (w : World) (v : VersioningState) (n : Nat) (w1 : World) : Prop where
  db : w1.db = w.db
  files : w1.files = w.files
  uuids : w1.uuids = w.uuids + drawsFor v
  read : w.clock ≤ n
  clock : n < w1.clock

/-- The row of the given version id, or the latest version. -/
def foundVersion (db : Db) (bucket key : Str) : Option Str → Option Manifest
  | some vid => db.objects.get (ManifestKey.mk bucket key vid).encode
  | none => handleGetLatestVersion db bucket key

@[simp] theorem ensures_lookupVersion {bucket key : Str} {versionId : Option Str} {Q : Option Manifest → World → Prop}
    {E : Failure → World → Prop} : Ensures env (lookupVersion bucket key versionId) w Q E ↔
      Q (foundVersion w.db bucket key versionId) { w with clock := w.clock + 2 } := by
  cases versionId <;> exact Iff.rfl

/-- The object a copy is made of. -/
def IsSource (db : Db) (source : CopySource) (src : Manifest) : Prop :=
  foundVersion db source.bucket source.key source.versionId = some src ∧ src.state = .committed ∧ src.kind = .object

theorem ensures_resolveSource {source : CopySource} {Q : Manifest → World → Prop} {E : Failure → World → Prop}
    (hq : ∀ src, IsSource w.db source src → Q src { w with clock := w.clock + 2 })
    (he : (∀ src, ¬ IsSource w.db source src) → ∀ e, E e { w with clock := w.clock + 2 }) :
    Ensures env (resolveSource source) w Q E := by
  unfold resolveSource
  simp only [ensures_bind, ensures_lookupVersion, ensures_orFail]
  refine ⟨fun src h => hq src ?_, fun hnone => he (fun src hsrc => ?_) _⟩
  · obtain ⟨hfound, hlive⟩ := Option.filter_eq_some_iff.mp h
    exact ⟨hfound, of_decide_eq_true hlive⟩
  · obtain ⟨hfound, hlive⟩ := hsrc
    rw [Option.filter_eq_some_iff.mpr ⟨hfound, decide_eq_true hlive⟩] at hnone
    cases hnone

theorem ensures_copyObject (bucket key : Str) (source : CopySource) (headers : HeaderMap) :
    Ensures env (copyObject env bucket key source headers) w
      (fun _ w' => ∃ cfg src n w1, w.db.buckets.get bucket = some cfg ∧ IsSource w.db source src ∧
        Ready w cfg.versioning n w1 ∧
          Puts env (copyManifest src ⟨bucket, key, versionIdFor env w cfg.versioning⟩ headers (env.now n)) w1 w')
      fun _ w' => w'.db = w.db ∧ w'.files = w.files := by
  unfold copyObject
  simp only [ensures_bind, ensures_op, ensures_orFail]
  refine ⟨fun cfg hcfg => ensures_resolveSource (fun src hsrc => ?_) fun _ _ => ⟨rfl, rfl⟩, fun _ => ⟨rfl, rfl⟩⟩
  rw [ensures_nextVersionId]
  refine (quiet_etagOf _).ensures (fun etag w1 h1 => ?_) fun _ w1 h1 => ⟨h1.db, h1.files⟩
  have hready : Ready w cfg.versioning (w.clock + 4) w1 :=
    ⟨h1.db, h1.files, h1.uuids, by omega, lt_of_lt_of_le (Nat.lt_succ_self _) h1.clock⟩
  refine ensures_putAndCollect (fun w' hputs => ?_) fun e => ⟨h1.db, h1.files⟩
  exact ⟨cfg, src, w.clock + 4, w1, hcfg, hsrc, hready, hputs⟩

theorem ensures_insertDeleteMarker (bucket key : Str) (v : VersioningState) :
    Ensures env (insertDeleteMarker bucket key v) w
      (fun _ w' => ∃ n w1, Ready w v n w1 ∧ Puts env (tombstone ⟨bucket, key, versionIdFor env w v⟩ (env.now n)) w1 w')
      fun _ w' => w'.db = w.db ∧ w'.files = w.files := by
  unfold insertDeleteMarker
  simp only [ensures_bind, ensures_nextVersionId, ensures_op (o := .nowUtc)]
  refine ensures_putAndCollect (fun w' hputs => ⟨w.clock, _, ?_, hputs⟩) fun e => ⟨rfl, rfl⟩
  exact ⟨rfl, rfl, rfl, le_rfl, Nat.lt_succ_self _⟩

theorem ensures_expireCurrent {bucket : Str} {v : VersioningState} (hv : v ≠ .off) (m : Manifest) (now : Time) :
    Ensures env (expireCurrent bucket v m now) w
      (fun _ w' => w'.db.objects = w.db.objects.insert (ManifestKey.mk bucket m.key.key (versionIdFor env w v)).encode
        (tombstone ⟨bucket, m.key.key, versionIdFor env w v⟩ now) ∧ w'.db.buckets = w.db.buckets)
      fun _ w' => w'.db = w.db := by
  have hmark : Ensures env (do
      let newVersion ← nextVersionId v
      let r ← op (.metaOp (.putManifest (tombstone ⟨bucket, m.key.key, newVersion⟩ now)))
      let _ ← mapErr mapMetaErr r
      ok ()) w
      (fun _ w' => w'.db.objects = w.db.objects.insert (ManifestKey.mk bucket m.key.key (versionIdFor env w v)).encode
        (tombstone ⟨bucket, m.key.key, versionIdFor env w v⟩ now) ∧ w'.db.buckets = w.db.buckets)
      fun _ w' => w'.db = w.db := by
    simp only [ensures_bind, ensures_nextVersionId, ensures_op, ensures_mapErr, ensures_ok]
    refine ⟨fun effect h => ?_, fun e h => (commit_error_inv h).2⟩
    obtain ⟨parts, -, -, hdb⟩ := put_ok (commit_ok_inv h)
    have hobjects := congrArg Db.objects hdb
    have hbuckets := congrArg Db.buckets hdb
    exact ⟨hobjects, hbuckets⟩
  cases v with
  | off => exact absurd rfl hv
  | enabled => exact hmark
  | suspended => exact hmark

/-! ## Completing an upload -/

/-- The request lists parts of the upload as they are stored, and none of them is being
    collected. -/
structure Completable (env : Env) (db : Db) (bucket key uploadId : Str) (body : Bytes) (up : Manifest)
    (selected : List PartRef) : Prop where
  row : db.objects.get (ManifestKey.mk bucket key uploadId).encode = some up
  inProgress : up.state = .inProgress
  request : ∃ request, env.xmlCompleteMultipartUpload body = .ok request ∧ request ≠ [] ∧ partsSorted 0 request = true ∧
    selectParts bucket key up.parts request = .ok selected
  size : ¬ (env.debug = true ∧ 2 ^ 64 ≤ (selected.map (·.size)).sum)
  unmarked : ∀ p ∈ selected, ¬ Marked db.parts p.hash

/-- From `w` to `w'` the upload became the object and what that freed was collected. -/
def Commits (env : Env) (upload : ManifestKey) (m : Manifest) (w w' : World) : Prop :=
  ∃ effect db', handleCompleteMultipart w.db (env.now w.clock) upload m = .ok (effect, db') ∧
    Collected effect.freedParts { w with db := db', clock := w.clock + 2 } w'

theorem Commits.objects {upload : ManifestKey} {m : Manifest} {w' : World} (h : Commits env upload m w w') :
    w'.db.objects = (w.db.objects.insert m.key.encode m).erase upload.encode ∧ w'.db.buckets = w.db.buckets := by
  obtain ⟨effect, db', hcomplete, hgc⟩ := h
  obtain ⟨up, parts, -, -, -, -, rfl⟩ := complete_ok hcomplete
  exact ⟨hgc.objects, hgc.buckets⟩

theorem ensures_findUpload {bucket key uploadId : Str} {Q : Manifest → World → Prop} {E : Failure → World → Prop}
    (hq : ∀ up, w.db.objects.get (ManifestKey.mk bucket key uploadId).encode = some up → up.state = .inProgress →
      Q up { w with clock := w.clock + 2 })
    (he : (∀ up, w.db.objects.get (ManifestKey.mk bucket key uploadId).encode = some up → up.state ≠ .inProgress) →
      ∀ e, E e { w with clock := w.clock + 2 }) : Ensures env (findUpload bucket key uploadId) w Q E := by
  unfold findUpload
  simp only [ensures_bind, ensures_op, ensures_orFail]
  refine ⟨fun up h => ?_, fun hnone => he (fun up hup hs => ?_) _⟩
  · obtain ⟨hup, hs⟩ := Option.filter_eq_some_iff.mp h
    exact hq up hup (of_decide_eq_true hs)
  · exact Option.filter_eq_none_iff.mp hnone up hup (decide_eq_true hs)

theorem ensures_completeMultipartUpload (bucket key uploadId : Str) (body : Bytes) :
    Ensures env (completeMultipartUpload env bucket key uploadId body) w
      (fun _ w' => ∃ up selected n w1, Completable env w.db bucket key uploadId body up selected ∧ Later w w1 ∧
        w.clock ≤ n ∧ n < w1.clock ∧
          Commits env ⟨bucket, key, uploadId⟩ (completedManifest bucket key up selected (env.now n)) w1 w')
      fun _ w' => w'.db = w.db ∧ w'.files = w.files ∧ ∀ up selected, ¬ Completable env w.db bucket key uploadId body up selected := by
  unfold completeMultipartUpload
  simp only [ensures_bind, ensures_ofExcept_mapError, ensures_ensure]
  refine ⟨fun request hrequest => ⟨fun hne => ⟨fun hsorted => ?_, fun hsorted => ?_⟩, fun hne => ?_⟩, fun e he => ?_⟩
  · refine ensures_findUpload (fun up hup hs => ?_) fun hnone e => ⟨rfl, rfl, fun up selected h => hnone up h.row h.inProgress⟩
    rw [ensures_ofExcept]
    refine ⟨fun selected hselected => ?_, fun e he => ⟨rfl, rfl, fun up' selected h => ?_⟩⟩
    · -- whatever the request lists is what was selected
      have hone : ∀ up' selected', Completable env w.db bucket key uploadId body up' selected' →
          up' = up ∧ selected' = selected := by
        intro up' selected' h
        have hup' := h.row
        rw [hup] at hup'
        cases hup'
        obtain ⟨request', hrequest', -, -, hselected'⟩ := h.request
        rw [hrequest] at hrequest'
        cases hrequest'
        rw [hselected] at hselected'
        cases hselected'
        exact ⟨rfl, rfl⟩
      unfold checkSizeSum
      split
      · rename_i hsize
        refine ⟨rfl, rfl, fun up' selected' h => ?_⟩
        obtain ⟨rfl, rfl⟩ := hone _ _ h
        exact h.size hsize
      · rename_i hsize
        rw [ensures_ok, ensures_op]
        have hetag : ∃ etag, etagOf env (completedManifest bucket key up selected (env.now (w.clock + 2))) = ok etag := ⟨_, rfl⟩
        obtain ⟨etag, hetag⟩ := hetag
        have hnow : (exec env .nowUtc { w with clock := w.clock + 2 }).1 = env.now (w.clock + 2) := rfl
        rw [hnow, hetag, ensures_ok, ensures_op, ensures_mapErr]
        have hlater : Later w (exec env .nowUtc { w with clock := w.clock + 2 }).2 := ⟨rfl, rfl, rfl, by
          show w.clock ≤ w.clock + 2 + 1
          omega⟩
        constructor
        · intro effect heffect
          have hcomplete := commit_ok_inv heffect
          have hunmarked : ∀ p ∈ selected, ¬ Marked w.db.parts p.hash := by
            intro p hp hm
            have hparts : ∃ p ∈ (completedManifest bucket key up selected (env.now (w.clock + 2))).parts, Marked w.db.parts p.hash :=
              ⟨p, hp, hm⟩
            obtain ⟨e, herror⟩ := complete_error_iff.mpr (Or.inr hparts)
            cases hcomplete.symm.trans herror
          refine (ensures_gcFreedParts effect.freedParts).mono (fun _ w' hgc => ?_) fun _ _ h => h
          exact ⟨up, selected, w.clock + 2, _, ⟨hup, hs, ⟨request, hrequest, hne, hsorted, hselected⟩, hsize, hunmarked⟩, hlater,
            by omega, Nat.lt_succ_self _, effect, _, hcomplete, hgc⟩
        · intro e he
          obtain ⟨hcomplete, hdb⟩ := commit_error_inv he
          refine ⟨hdb, rfl, fun up' selected' h => ?_⟩
          obtain ⟨rfl, rfl⟩ := hone _ _ h
          rcases complete_error_iff.mp ⟨e, hcomplete⟩ with hnone | ⟨p, hp, hm⟩
          · exact hnone _ hup hs
          · exact h.unmarked p hp hm
    · have hup' := h.row
      rw [hup] at hup'
      cases hup'
      obtain ⟨request', hrequest', -, -, hselected⟩ := h.request
      rw [hrequest] at hrequest'
      cases hrequest'
      rw [he] at hselected
      cases hselected
  · refine ⟨trivial, trivial, fun up selected h => ?_⟩
    obtain ⟨request', hrequest', -, hsorted', -⟩ := h.request
    rw [hrequest] at hrequest'
    cases hrequest'
    exact hsorted hsorted'
  · refine ⟨trivial, trivial, fun up selected h => ?_⟩
    obtain ⟨request', hrequest', hne', -⟩ := h.request
    rw [hrequest] at hrequest'
    cases hrequest'
    exact hne hne'
  · refine ⟨trivial, trivial, fun up selected h => ?_⟩
    obtain ⟨request', hrequest', -⟩ := h.request
    rw [he] at hrequest'
    cases hrequest'

/-! ## DELETE -/

/-- From `w` to `w'` the row went and what that freed was collected; `false` when there was none. -/
def Removes (key : ManifestKey) (w : World) (removed : Bool) (w' : World) : Prop :=
  match w.db.objects.get key.encode with
  | none => removed = false ∧ w' = { w with clock := w.clock + 2 }
  | some _ => removed = true ∧ ∃ effect db', handleDeleteManifest w.db key = .ok (effect, db') ∧
      Collected effect.freedParts { w with db := db', clock := w.clock + 2 } w'

theorem Removes.objects {key : ManifestKey} {removed : Bool} {w' : World} (h : Removes key w removed w') :
    w'.db.objects = w.db.objects.erase key.encode ∧ w'.db.buckets = w.db.buckets := by
  unfold Removes at h
  split at h
  · rename_i hnone
    obtain ⟨-, rfl⟩ := h
    exact ⟨(Table.erase_of_none hnone).symm, rfl⟩
  · obtain ⟨-, effect, db', hdelete, hgc⟩ := h
    obtain ⟨m, -, -, rfl⟩ := delete_ok hdelete
    exact ⟨hgc.objects, hgc.buckets⟩

theorem ensures_removeManifest {key : ManifestKey} {Q : Bool → World → Prop} {E : Failure → World → Prop}
    (hq : ∀ removed w', Removes key w removed w' → Q removed w') : Ensures env (removeManifest key) w Q E := by
  unfold removeManifest
  simp only [ensures_bind, ensures_op]
  cases hrow : w.db.objects.get key.encode with
  | none =>
    have hdelete : handleDeleteManifest w.db key = .error (.manifestNotFound key) := by
      unfold handleDeleteManifest
      rw [hrow]
    simp only [exec, MetaOp.exec, hdelete, commit_error, ensures_ok]
    refine hq false _ ?_
    unfold Removes
    rw [hrow]
    exact ⟨rfl, rfl⟩
  | some m =>
    cases hdelete : handleDeleteManifest w.db key with
    | error e =>
      unfold handleDeleteManifest at hdelete
      rw [hrow] at hdelete
      cases hdelete
    | ok r =>
      simp only [exec, MetaOp.exec, hdelete, commit, ensures_bind, ensures_ok]
      refine (ensures_gcFreedParts r.1.freedParts).mono (fun _ w' hgc => hq true w' ?_) fun _ _ h => h
      unfold Removes
      rw [hrow]
      exact ⟨rfl, r.1, r.2, hdelete, hgc⟩

end S3lite
