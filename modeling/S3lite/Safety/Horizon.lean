/-
  S3lite.Safety.Horizon — default retentions that end after the last date there is.

  A configuration of Object Lock is accepted with any number of days or years; the end of a
  retention is computed at each PUT, and the sum panics past the year 9999.
  - `default_fits_iff`: the default lock is computed, and a PUT that gets to it does not panic,
    exactly if the configured days end in time.
  - `a_long_default_stops_every_put`: four billion days.
-/
import S3lite.Safety.Leftover
import S3lite.Safety.Retention

namespace S3lite

open Handler

/-- The days the body asks for by default: its days, or else 365 for each year. -/
def ObjectLockConfigurationXml.defaultDays (xml : ObjectLockConfigurationXml) : Option Nat :=
  xml.rule.join.bind fun d => d.days.or (d.years.map (· * 365))

/-- A retention of these days from this time on ends at a time there is. -/
def ObjectLockConfigurationXml.EndsInTime (xml : ObjectLockConfigurationXml) (now : Time) : Prop :=
  ∀ days, xml.defaultDays = some days → now + days * nanosPerDay ≤ maxTime

section
variable {env : Env} {w : World}

/-! ## What is stored -/

theorem exec_updateBucketObjectLock (env : Env) {w : World} {bucket : Str} {cfg : BucketConfig} (h : w.db.buckets.get bucket = some cfg)
    (lock : Option ObjectLockConfig) :
    (exec env (.metaOp (.updateBucketObjectLock bucket lock)) w).2.db.buckets.get bucket =
      some { cfg with objectLock := lock } := by
  simp only [exec, MetaOp.exec, handleUpdateBucketObjectLock, updateBucket, h, commit_, Except.map, commit_ok,
    Table.get_insert_self]

/-- An accepted body is stored, its default retention as it was read. -/
theorem putBucketObjectLockConfig_stores {bucket : Str} {body : Bytes} {xml : ObjectLockConfigurationXml}
    (hxml : env.xmlObjectLock body = .ok xml) {resp : Response} {w1 : World}
    (hrun : run env (putBucketObjectLockConfig env bucket body) w = (.ok resp, w1)) :
    ∃ existing stored d enabled, w.db.buckets.get bucket = some existing ∧ w1.db.buckets.get bucket = some stored ∧
      stored.objectLock = some ⟨enabled, d⟩ ∧ (existing.objectLock.any (·.enabled) = true → enabled = true) ∧
      parseDefaultRetention xml.rule.join = .ok d := by
  have hspec : Ensures env (putBucketObjectLockConfig env bucket body) w (fun _ w1 =>
      ∃ existing stored d enabled, w.db.buckets.get bucket = some existing ∧ w1.db.buckets.get bucket = some stored ∧
        stored.objectLock = some ⟨enabled, d⟩ ∧ (existing.objectLock.any (·.enabled) = true → enabled = true) ∧
        parseDefaultRetention xml.rule.join = .ok d) fun _ _ => True := by
    unfold putBucketObjectLockConfig
    rw [hxml]
    simp only [ensures_bind, ensures_ofExcept, ensures_requireBucket, ensures_ensure, ensures_op, ensures_mapErr]
    refine ⟨fun xml' hxml' => ?_, fun _ _ => trivial⟩
    cases hxml'
    refine ⟨fun existing hexisting => ⟨fun _ => ⟨fun d hd => ⟨fun _ hok => ?_, fun _ _ => trivial⟩, fun _ _ => trivial⟩, fun _ => trivial⟩,
      fun _ => trivial⟩
    refine ⟨existing, _, d, _, hexisting, exec_updateBucketObjectLock env hexisting _, rfl, fun h => ?_, hd⟩
    rw [h, Bool.true_or]
  unfold Ensures at hspec
  rw [hrun] at hspec
  exact hspec

/-- The stored default lasts the days of the body. -/
theorem parseDefaultRetention_length {x : Option DefaultRetentionXml} {d : Option DefaultRetention}
    (h : parseDefaultRetention x = .ok d) :
    d.bind DefaultRetention.length = x.bind fun d => d.days.or (d.years.map (· * 365)) := by
  cases x with
  | none =>
    cases h
    rfl
  | some x =>
    unfold parseDefaultRetention at h
    dsimp only at h
    cases hmode : parseMode x.mode with
    | error e =>
      rw [hmode] at h
      cases h
    | ok mode =>
      rw [hmode] at h
      cases h
      rw [Option.bind_some, Option.bind_some, DefaultRetention.length]
      cases x.days <;> rfl

theorem lockFits_iff {cfg : Option ObjectLockConfig} {d : Option DefaultRetention} (hcfg : cfg = some ⟨true, d⟩) {now : Time} :
    LockFits cfg none now ↔ ∀ days, d.bind DefaultRetention.length = some days → now + days * nanosPerDay ≤ maxTime := by
  subst hcfg
  unfold LockFits
  rw [Option.bind_some, if_pos rfl]
  constructor
  · intro h days hdays
    obtain ⟨d, rfl, hlen⟩ := Option.bind_eq_some_iff.mp hdays
    exact h rfl d rfl days hlen
  · intro h _ d hd days hlen
    exact h days (Option.bind_eq_some_iff.mpr ⟨d, hd, hlen⟩)

/-! ## What is computed -/

theorem default_panics_iff (cfg : Option ObjectLockConfig) :
    (run env (defaultLockForBucket cfg) w).1 ≠ .error .panicked ↔ LockFits cfg none (env.now w.clock) := by
  have hspec : Ensures env (lockForPut cfg none) w (fun _ _ => LockFits cfg none (env.now w.clock))
      fun e _ => e = .panicked ∧ ¬ LockFits cfg none (env.now w.clock) :=
    ensures_lockForPut_fits (fun h _ _ _ => h) fun h _ _ => ⟨rfl, h⟩
  unfold Ensures at hspec
  rw [show lockForPut cfg none = defaultLockForBucket cfg from rfl] at hspec
  generalize run env (defaultLockForBucket cfg) w = r at hspec ⊢
  obtain ⟨r, w'⟩ := r
  cases r with
  | ok lock => exact iff_of_true (fun h => by cases h) hspec
  | error e => exact iff_of_false (fun h => h (by rw [hspec.1])) hspec.2

theorem ensures_ofExcept_of {α : Type} {r : Except S3Error α} {a : α} {Q : α → World → Prop} {E : Failure → World → Prop}
    (h : r = .ok a) (hq : Q a w) : Ensures env (ofExcept r) w Q E := by
  subst h
  exact hq

/-- The PUT passes its checks and has no lock of its own. -/
structure ReachesDefault (env : Env) (w : World) (bucket key : Str) (headers : HeaderMap) (body : Bytes) : Prop where
  checked : PutChecked env w bucket key headers body
  tags : ∃ tags, parseXAmzTagging headers = .ok tags
  unlocked : parseLockHeaders env headers = .ok none

theorem put_panics_iff {bucket key : Str} {headers : HeaderMap} {body : Bytes} (h : ReachesDefault env w bucket key headers body)
    {cfg : BucketConfig} (hcfg : w.db.buckets.get bucket = some cfg) :
    (run env (putObject env bucket key headers body) w).1 ≠ .error .panicked ↔
      LockFits cfg.objectLock none (env.now (w.clock + 2 + checkReads headers)) := by
  obtain ⟨hchecked, ⟨tags, htags⟩, hunlocked⟩ := h
  obtain ⟨expected, hexpected, hmd5⟩ := hchecked.md5
  obtain ⟨given, hgiven, hverify⟩ := hchecked.checksum
  have hspec : Ensures env (putObject env bucket key headers body) w
      (fun _ _ => LockFits cfg.objectLock none (env.now (w.clock + 2 + checkReads headers)))
      fun e _ => e ≠ .panicked ↔ LockFits cfg.objectLock none (env.now (w.clock + 2 + checkReads headers)) := by
    unfold putObject
    simp only [ensures_bind, ensures_requireBucket, hcfg]
    refine ⟨fun cfg' hcfg' => ?_, fun hnone => by cases hnone⟩
    cases hcfg'
    refine ensures_checkPutPreconditions (fun _ => ?_) fun hfail => absurd hchecked.conditions hfail
    refine ensures_ofExcept_of hexpected (ensures_ensure.mpr ⟨fun _ => ?_, fun hno => absurd hmd5 hno⟩)
    refine ensures_ofExcept_of (by rw [hgiven]; rfl) (ensures_ofExcept_of (by rw [hverify]; rfl) ?_)
    rw [ensures_op, ensures_nextVersionId]
    refine ensures_ofExcept_of (by rw [htags]; rfl) (ensures_ofExcept_of (by rw [hunlocked]; rfl) ?_)
    refine ensures_lockForPut_fits (fun hfits lock w3 _ => ?_) fun hno w3 _ => iff_of_false (fun h => h rfl) hno
    have hfits : LockFits cfg.objectLock none (env.now (w.clock + 2 + checkReads headers)) := hfits
    rw [ensures_op]
    refine ensures_etagOf_single rfl rfl fun etag => ?_
    rw [ensures_op, ensures_mapErr]
    refine ⟨fun effect _ => ?_, fun e _ => iff_of_true (fun h => by cases h) hfits⟩
    exact (ensures_gcFreedParts effect.freedParts).mono (fun _ _ _ => hfits) fun _ _ h => h
  unfold Ensures at hspec
  generalize run env (putObject env bucket key headers body) w = r at hspec ⊢
  obtain ⟨r, w'⟩ := r
  cases r with
  | ok resp => exact iff_of_true (fun h => by cases h) hspec
  | error e =>
    have hspec : e ≠ .panicked ↔ LockFits cfg.objectLock none (env.now (w.clock + 2 + checkReads headers)) := hspec
    rw [← hspec, ne_eq, ne_eq, Except.error.injEq]

/-- On a bucket with Object Lock, an accepted default retention is computed at any later time, and
    a PUT gets past it, exactly if it ends in time from then on. -/
theorem default_fits_iff {bucket : Str} {body : Bytes} {xml : ObjectLockConfigurationXml}
    (hxml : env.xmlObjectLock body = .ok xml) {resp : Response} {w1 : World}
    (haccepted : run env (putBucketObjectLockConfig env bucket body) w = (.ok resp, w1))
    (henabled : ∀ existing, w.db.buckets.get bucket = some existing → existing.objectLock.any (·.enabled) = true)
    {later : World} {cfg : BucketConfig} (hcfg : later.db.buckets.get bucket = some cfg)
    (hsame : (w1.db.buckets.get bucket).map (·.objectLock) = some cfg.objectLock) :
    ((run env (defaultLockForBucket cfg.objectLock) later).1 ≠ .error .panicked ↔ xml.EndsInTime (env.now later.clock)) ∧
      ∀ key headers data, ReachesDefault env later bucket key headers data →
        ((run env (putObject env bucket key headers data) later).1 ≠ .error .panicked ↔
          xml.EndsInTime (env.now (later.clock + 2 + checkReads headers))) := by
  obtain ⟨existing, stored, d, enabled, hexisting, hstored, hlock, hkeeps, hd⟩ := putBucketObjectLockConfig_stores hxml haccepted
  have hon : enabled = true := hkeeps (henabled existing hexisting)
  rw [hstored, Option.map_some, Option.some.injEq, hlock, hon] at hsame
  have hends : ∀ now, LockFits cfg.objectLock none now ↔ xml.EndsInTime now := by
    intro now
    rw [lockFits_iff hsame.symm, parseDefaultRetention_length hd]
    rfl
  refine ⟨?_, fun key headers data h => ?_⟩
  · rw [default_panics_iff, hends]
  · rw [put_panics_iff h hcfg, hends]

end

/-! ## A bucket with a default of this many days -/

/-- An environment that parses one configuration. -/
def daysEnv (days : Nat) : Env :=
  { sampleEnv with
    xmlObjectLock := fun _ => .ok ⟨some (str "Enabled"), some (some ⟨some (str "COMPLIANCE"), some days, none⟩)⟩ }

/-- A bucket created with Object Lock. -/
def lockWorld (days : Nat) : World :=
  (run (daysEnv days) (createBucket (daysEnv days) (str "bucket") [(str "x-amz-bucket-object-lock-enabled", str "true")]) World.empty).2

/-- The bucket after the configuration. -/
def defaultWorld (days : Nat) : World :=
  (run (daysEnv days) (putBucketObjectLockConfig (daysEnv days) (str "bucket") []) (lockWorld days)).2

theorem reachesDefault_plain {env : Env} {w : World} {bucket key : Str} {data : Bytes} (h : (w.db.buckets.get bucket).isSome) :
    ReachesDefault env w bucket key [] data where
  checked := ⟨h, rfl, ⟨none, rfl, rfl⟩, ⟨none, rfl, rfl⟩⟩
  tags := ⟨_, rfl⟩
  unlocked := rfl

theorem default_fits_iff_30_days : ∃ cfg, (defaultWorld 30).db.buckets.get (str "bucket") = some cfg ∧
    (run (daysEnv 30) (defaultLockForBucket cfg.objectLock) (defaultWorld 30)).1 ≠ .error .panicked ∧
      (run (daysEnv 30) (putObject (daysEnv 30) (str "bucket") (str "k") [] (str "a")) (defaultWorld 30)).1 ≠ .error .panicked := by
  have hfound : ((defaultWorld 30).db.buckets.get (str "bucket")).isSome = true := by rfl
  obtain ⟨cfg, hcfg⟩ := Option.isSome_iff_exists.mp hfound
  have haccepted : run (daysEnv 30) (putBucketObjectLockConfig (daysEnv 30) (str "bucket") []) (lockWorld 30) =
      (.ok (.ofStatus 200), defaultWorld 30) := by rfl
  have henabled : ((lockWorld 30).db.buckets.get (str "bucket")).all (fun b => b.objectLock.any (·.enabled)) = true := by rfl
  have hends : ∀ n, n ≤ 100 → (⟨some (str "Enabled"), some (some ⟨some (str "COMPLIANCE"), some 30, none⟩)⟩ :
      ObjectLockConfigurationXml).EndsInTime ((daysEnv 30).now n) := by
    intro n hn days hdays
    cases hdays
    show (n : Int) + (30 : Int) * (86400 * 10 ^ 9) ≤ 253402300799999999999
    omega
  have h := default_fits_iff rfl haccepted (fun existing hexisting => by rwa [hexisting] at henabled) hcfg (by rw [hcfg]; rfl)
  exact ⟨cfg, hcfg, h.1.mpr (hends _ (by decide)), (h.2 _ _ _ (reachesDefault_plain hfound)).mpr (hends _ (by decide))⟩

theorem a_long_default_stops_every_put : ¬ ∀ (env : Env) (w w1 : World) (bucket key : Str) (body data : Bytes) (resp : Response),
    run env (putBucketObjectLockConfig env bucket body) w = (.ok resp, w1) →
      (∀ existing, w.db.buckets.get bucket = some existing → existing.objectLock.any (·.enabled) = true) →
        (run env (putObject env bucket key [] data) w1).1 ≠ .error .panicked := by
  intro hall
  have henabled : ((lockWorld 4294967295).db.buckets.get (str "bucket")).all (fun b => b.objectLock.any (·.enabled)) = true := by rfl
  have haccepted : run (daysEnv 4294967295) (putBucketObjectLockConfig (daysEnv 4294967295) (str "bucket") [])
      (lockWorld 4294967295) = (.ok (.ofStatus 200), defaultWorld 4294967295) := by rfl
  apply hall (daysEnv 4294967295) _ _ (str "bucket") (str "k") [] (str "a") _ haccepted
  · intro existing hexisting
    rwa [hexisting] at henabled
  · rfl

end S3lite
