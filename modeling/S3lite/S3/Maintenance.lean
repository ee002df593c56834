/-
  S3lite.S3.Maintenance — the sweeper: lifecycle rules, then the collection of orphan parts
  (src/s3/maintenance.rs).

  A sweep fails with the store's error, which the daemon logs and no client sees.
-/
import S3lite.S3.Lock

namespace S3lite

open Handler

structure SweepReport where
  expiredCurrent : Nat
  expiredNoncurrent : Nat
  abortedMultipart : Nat
  gcPartsRemoved : Nat
  deriving DecidableEq

/-- `n += 1` on a `u32`, as a release build wraps it. With overflow checks it would panic. -/
def countUp (n : Nat) : Nat := (n + 1) % 2 ^ 32

/-! ## Lifecycle -/

/-- `now - created_at >= Duration::days(days)` -/
def agedDays (now createdAt : Time) (days : Nat) : Bool := decide (days * nanosPerDay ≤ now - createdAt)

/-- The rule's filter, a prefix only. -/
def LifecycleRule.matching (rule : LifecycleRule) (key : Str) : Bool := rule.filterPrefix.all fun p => decide (p <+: key)

/-- Versioning switched on: a delete marker. Off: the row goes. -/
def expireCurrent (bucket : Str) (versioning : VersioningState) (manifest : Manifest) (now : Time) : Handler Unit :=
  match versioning with
  | .off => do
    let r ← op (.metaOp (.deleteManifest manifest.key))
    let _ ← mapErr mapMetaErr r
    ok ()
  | .enabled | .suspended => do
    let newVersion ← nextVersionId versioning
    let r ← op (.metaOp (.putManifest (tombstone ⟨bucket, manifest.key.key, newVersion⟩ now)))
    let _ ← mapErr mapMetaErr r
    ok ()

/-- What the lifecycle rules do with one manifest. -/
inductive LifecycleAction where
  | keep
  | abortUpload
  | expireCurrent
  | expireNoncurrent
  deriving DecidableEq

/-- The first matching rule with the relevant action wins. A locked version is kept. -/
def lifecycleAction (manifest : Manifest) (isCurrent : Bool) (rules : List LifecycleRule) (now : Time) : LifecycleAction :=
  let rules := rules.filter (·.matching manifest.key.key)
  match manifest.state with
  | .inProgress =>
    if rules.any fun r => r.abortIncompleteMultipartUpload.any (agedDays now manifest.createdAt) then .abortUpload
    else .keep
  | .aborted => .abortUpload
  | .committed =>
    if manifest.objectLock.any fun l => l.forbidsDelete now then .keep
    else (rules.findSome? fun r =>
      if isCurrent && manifest.kind == .object && r.expiration.any (agedDays now manifest.createdAt) then
        some .expireCurrent
      else if !isCurrent && r.noncurrentVersionExpiration.any (agedDays now manifest.createdAt) then
        some .expireNoncurrent
      else none).getD .keep

def evaluateManifest (bucket : Str) (versioning : VersioningState) (manifest : Manifest)
    (currentVersionId : Option Str) (rules : List LifecycleRule) (now : Time) (report : SweepReport) :
    Handler SweepReport :=
  match lifecycleAction manifest (decide (currentVersionId = some manifest.key.versionId)) rules now with
  | .keep => ok report
  | .abortUpload => do
    let r ← op (.metaOp (.deleteManifest manifest.key))
    let _ ← mapErr mapMetaErr r
    ok { report with abortedMultipart := countUp report.abortedMultipart }
  | .expireCurrent => do
    expireCurrent bucket versioning manifest now
    ok { report with expiredCurrent := countUp report.expiredCurrent }
  | .expireNoncurrent => do
    let r ← op (.metaOp (.deleteManifest manifest.key))
    let _ ← mapErr mapMetaErr r
    ok { report with expiredNoncurrent := countUp report.expiredNoncurrent }

def evaluateAll (bucket : Str) (versioning : VersioningState) (currentVersionId : Option Str)
    (rules : List LifecycleRule) (now : Time) (report : SweepReport) : List Manifest → Handler SweepReport
  | [] => ok report
  | m :: ms => do
    let report ← evaluateManifest bucket versioning m currentVersionId rules now report
    evaluateAll bucket versioning currentVersionId rules now report ms

/-- The loop over the keys: the newest committed version of a key is the current one. -/
def sweepKeys (bucket : Str) (versioning : VersioningState) (rules : List LifecycleRule) (now : Time)
    (report : SweepReport) : List (Str × List Manifest) → Handler SweepReport
  | [] => ok report
  | (_, versions) :: rest => do
    let versions := sortVersions versions
    let currentVersionId := (versions.find? fun m => m.state = .committed).map (·.key.versionId)
    let report ← evaluateAll bucket versioning currentVersionId rules now report versions
    sweepKeys bucket versioning rules now report rest

def sweepBuckets (now : Time) (report : SweepReport) : List (Str × BucketConfig) → Handler SweepReport
  | [] => ok report
  | (name, cfg) :: rest => do
    let activeRules := cfg.lifecycleRules.filter fun r => r.status = .enabled
    if activeRules = [] then sweepBuckets now report rest
    else do
      let manifests ← op (.metaOp (.listAllManifestsInBucket name))
      let byKey := manifests.foldl pushVersion .empty
      let report ← sweepKeys name cfg.versioning activeRules now report byKey.rows
      sweepBuckets now report rest

def sweepLifecycleAt (now : Time) : Handler SweepReport := do
  let buckets ← op (.metaOp .listBuckets)
  sweepBuckets now ⟨0, 0, 0, 0⟩ buckets

/-! ## Collection -/

/-- The loop over the orphans; how many were removed. -/
def sweepParts : List Hash → Handler Nat
  | [] => ok 0
  | hash :: orphans => do
    let removed ← collectPart hash
    let rest ← sweepParts orphans
    ok (if removed then countUp rest else rest)

def sweepGc : Handler Nat := do
  let orphans ← op (.metaOp .listOrphanParts)
  sweepParts orphans

def sweepAt (now : Time) : Handler SweepReport := do
  let report ← sweepLifecycleAt now
  let gc ← sweepGc
  ok { report with gcPartsRemoved := gc }

def sweepOnce : Handler SweepReport := do
  let now ← op .nowUtc
  sweepAt now

end S3lite
