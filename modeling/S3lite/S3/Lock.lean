/-
  S3lite.S3.Lock — Object Lock: the bucket's configuration, retention and legal hold, and
  the lock a PUT gives its object (src/s3/lock.rs).
-/
import S3lite.S3.Common

namespace S3lite

open Handler

def nanosPerDay : Int := 86400 * 10 ^ 9

/-- The last `OffsetDateTime`, 9999-12-31T23:59:59.999999999Z; later ones are a panic. -/
def maxTime : Time := 253402300799999999999

def parseMode : Option Str → Except S3Error LockMode
  | some value =>
    if value = str "COMPLIANCE" then .ok .compliance
    else if value = str "GOVERNANCE" then .error (invalid (str "GOVERNANCE mode is not supported (Compliance only)"))
    else .error (invalid (str "invalid lock Mode '" ++ value ++ str "'"))
  | none => .error (invalidRequest (str "lock Mode is required"))

def modeToStr : LockMode → Str
  | .compliance => str "COMPLIANCE"

/-! ## The bucket's configuration -/

def parseDefaultRetention : Option DefaultRetentionXml → Except S3Error (Option DefaultRetention)
  | some d => (parseMode d.mode).map fun mode => some ⟨mode, d.days, d.years⟩
  | none => .ok none

/-- Object Lock is enabled at the bucket's creation or never. -/
def putBucketObjectLockConfig (env : Env) (bucket : Str) (body : Bytes) : Handler Response := do
  let xml ← ofExcept ((env.xmlObjectLock body).mapError fun e =>
    (invalidRequest (str "malformed ObjectLockConfiguration body: " ++ e)).withResource (bucketPath bucket))
  let existing ← requireBucket bucket
  let wasEnabled := existing.objectLock.any (·.enabled)
  let nowEnabled := decide (xml.objectLockEnabled = some (str "Enabled"))
  ensure (¬ (nowEnabled = true ∧ wasEnabled = false))
    ((invalidRequest
      (str "Object Lock must be enabled at bucket creation (x-amz-bucket-object-lock-enabled)")).withResource
        (bucketPath bucket))
  let defaultRetention ← ofExcept (parseDefaultRetention xml.rule.join)
  let r ← op (.metaOp (.updateBucketObjectLock bucket (some ⟨wasEnabled || nowEnabled, defaultRetention⟩)))
  mapErr mapMetaErr r
  ok (.ofStatus 200)

def getBucketObjectLockConfig (bucket : Str) : Handler Response := do
  let cfg ← requireBucket bucket
  let lockCfg := cfg.objectLock.getD ⟨false, none⟩
  ok (.ofXml (.objectLock
    ⟨if lockCfg.enabled then some (str "Enabled") else none,
      lockCfg.defaultRetention.map fun d => some ⟨some (modeToStr d.mode), d.days, d.years⟩⟩))

/-! ## Retention and legal hold -/

def putObjectRetention (env : Env) (bucket key : Str) (versionId : Option Str) (body : Bytes) : Handler Response := do
  let xml ← ofExcept ((env.xmlRetention body).mapError fun e =>
    (invalidRequest (str "malformed Retention body: " ++ e)).withResource (objectPath bucket key))
  let mode ← ofExcept (parseMode (some xml.1))
  let retainUntil ← orFail (env.parseRfc3339 xml.2)
    ((invalidRequest (str "RetainUntilDate must be ISO 8601")).withResource (objectPath bucket key))
  let manifest ← loadTarget bucket key versionId
  -- retention may be extended only
  ensure (∀ l ∈ manifest.objectLock, ∀ existing ∈ l.retention, existing.retainUntil ≤ retainUntil)
    ((S3Error.new .accessForbidden (str "Compliance retention period cannot be shortened")).withResource
      (objectPath bucket key))
  let newLock : ObjectLock := ⟨some ⟨mode, retainUntil⟩, manifest.objectLock.any (·.legalHold)⟩
  let r ← op (.metaOp (.updateManifestLock manifest.key (some newLock)))
  mapErr mapMetaErr r
  ok (.ofStatus 200)

def getObjectRetention (env : Env) (bucket key : Str) (versionId : Option Str) : Handler Response := do
  let manifest ← loadTarget bucket key versionId
  let retention ← orFail (manifest.objectLock.bind (·.retention))
    ((invalidRequest (str "no retention configured for this object")).withResource (objectPath bucket key))
  ok (.ofXml (.retention (modeToStr retention.mode) (env.formatRfc3339 retention.retainUntil)))

def legalHoldOf (bucket key : Str) (status : Str) : Except S3Error Bool :=
  if status = str "ON" then .ok true
  else if status = str "OFF" then .ok false
  else .error ((invalid (str "invalid LegalHold Status '" ++ status ++ str "'")).withResource (objectPath bucket key))

def putObjectLegalHold (env : Env) (bucket key : Str) (versionId : Option Str) (body : Bytes) : Handler Response := do
  let status ← ofExcept ((env.xmlLegalHold body).mapError fun e =>
    (invalidRequest (str "malformed LegalHold body: " ++ e)).withResource (objectPath bucket key))
  let on ← ofExcept (legalHoldOf bucket key status)
  let manifest ← loadTarget bucket key versionId
  let newLock : ObjectLock := ⟨manifest.objectLock.bind (·.retention), on⟩
  let r ← op (.metaOp (.updateManifestLock manifest.key (some newLock)))
  mapErr mapMetaErr r
  ok (.ofStatus 200)

def getObjectLegalHold (bucket key : Str) (versionId : Option Str) : Handler Response := do
  let manifest ← loadTarget bucket key versionId
  ok (.ofXml (.legalHold (if manifest.objectLock.any (·.legalHold) then str "ON" else str "OFF")))

/-! ## The lock of a PUT -/

/-- `none` when the request has no lock header. -/
def parseLockHeaders (env : Env) (headers : HeaderMap) : Except S3Error (Option ObjectLock) := do
  let mode := headerString headers (str "x-amz-object-lock-mode")
  let retainUntil := headerString headers (str "x-amz-object-lock-retain-until-date")
  let legalHold := headerString headers (str "x-amz-object-lock-legal-hold")
  if mode = none ∧ retainUntil = none ∧ legalHold = none then
    return none
  let retention ← match mode, retainUntil with
    | some m, some d => do
      let mode ← parseMode (some m)
      match env.parseRfc3339 d with
      | some t => Except.ok (some (⟨mode, t⟩ : Retention))
      | none => .error (invalidRequest (str "x-amz-object-lock-retain-until-date must be ISO 8601"))
    | none, none => .ok none
    | _, _ => .error (invalidRequest
        (str "x-amz-object-lock-mode and x-amz-object-lock-retain-until-date must be set together"))
  let hold ← match legalHold with
    | none => Except.ok false
    | some v =>
      if v = str "ON" then .ok true
      else if v = str "OFF" then .ok false
      else .error (invalid (str "invalid x-amz-object-lock-legal-hold '" ++ v ++ str "'"))
  return some ⟨retention, hold⟩

/-- `now + time::Duration::days(days)` -/
def addDays (now : Time) (days : Nat) : Handler Time :=
  let t := now + days * nanosPerDay
  if t ≤ maxTime then ok t else panicked

/-- The days a default retention lasts. -/
def DefaultRetention.length (d : DefaultRetention) : Option Nat :=
  match d.days with
  | some days => some days
  | none => d.years.map (· * 365)

def defaultLockForBucket (cfg : Option ObjectLockConfig) : Handler (Option ObjectLock) :=
  match cfg.bind fun c => if c.enabled then c.defaultRetention else none with
  | none => ok none
  | some d => do
    let now ← op .nowUtc
    match d.length with
    | none => pure none
    | some days => do
      let retainUntil ← addDays now days
      pure (some ⟨some ⟨d.mode, retainUntil⟩, false⟩)

/-- The lock of a PUT: the one of its headers, or else the bucket's default retention. -/
def lockForPut (cfg : Option ObjectLockConfig) : Option ObjectLock → Handler (Option ObjectLock)
  | some l => ok (some l)
  | none => defaultLockForBucket cfg

end S3lite
