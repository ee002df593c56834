/-
  S3lite.S3.Bucket — buckets and their configuration (src/s3/bucket.rs and src/s3/cors.rs,
  less the CORS headers of cross-origin requests).
-/
import S3lite.S3.Common

namespace S3lite

open Handler

def listBuckets (env : Env) : Handler Response := do
  let listed ← op (.metaOp .listBuckets)
  ok (.ofXml (.listAllMyBuckets (listed.map fun b => (b.1, env.formatRfc3339 b.2.createdAt))))

/-- Object Lock at creation also enables versioning. -/
def newBucketConfig (env : Env) (headers : HeaderMap) (now : Time) : BucketConfig :=
  let objectLockEnabled := (headerString headers (str "x-amz-bucket-object-lock-enabled")).any fun v =>
    decide (toAsciiLower v = str "true")
  { createdAt := now
    versioning := if objectLockEnabled then .enabled else .off
    region := env.region
    corsRules := []
    objectLock := if objectLockEnabled then some ⟨true, none⟩ else none
    lifecycleRules := [] }

def createBucket (env : Env) (bucket : Str) (headers : HeaderMap) : Handler Response := do
  let now ← op .nowUtc
  let r ← op (.metaOp (.createBucket bucket (newBucketConfig env headers now)))
  match r with
  | .ok () => ok ((Response.ofStatus 200).setHeader (str "location") (bucketPath bucket))
  | .error (.bucketExists _) =>
    fail ((S3Error.new .bucketAlreadyOwnedByYou (str "bucket already exists")).withResource (bucketPath bucket))
  | .error e => fail (mapMetaErr e)

def deleteBucket (bucket : Str) : Handler Response := do
  let r ← op (.metaOp (.deleteBucket bucket))
  match r with
  | .ok () => ok (.ofStatus 204)
  | .error (.bucketNotFound _) => fail (noSuchBucket bucket)
  | .error (.bucketNotEmpty _) =>
    fail ((S3Error.new .bucketNotEmpty (str "bucket is not empty")).withResource (bucketPath bucket))
  | .error e => fail (mapMetaErr e)

def headBucket (bucket : Str) : Handler Response := do
  let _ ← requireBucket bucket
  ok (.ofStatus 200)

def getBucketLocation (bucket : Str) : Handler Response := do
  let cfg ← requireBucket bucket
  ok (.ofXml (.locationConstraint cfg.region))

/-! ## Versioning -/

def versioningStateOf (bucket : Str) : Option Str → Except S3Error VersioningState
  | some status =>
    if status = str "Enabled" then .ok .enabled
    else if status = str "Suspended" then .ok .suspended
    else .error ((invalid (str "invalid versioning Status '" ++ status ++ str "'")).withResource (bucketPath bucket))
  | none =>
    .error ((invalidRequest (str "VersioningConfiguration must include a Status")).withResource (bucketPath bucket))

def putBucketVersioning (env : Env) (bucket : Str) (body : Bytes) : Handler Response := do
  let status ← ofExcept ((env.xmlVersioning body).mapError fun e =>
    (invalidRequest (str "malformed VersioningConfiguration body: " ++ e)).withResource (bucketPath bucket))
  let newState ← ofExcept (versioningStateOf bucket status)
  let r ← op (.metaOp (.updateBucketVersioning bucket newState))
  bucketUpdated bucket 200 r

def getBucketVersioning (bucket : Str) : Handler Response := do
  let cfg ← requireBucket bucket
  ok (.ofXml (.versioning (match cfg.versioning with
    | .off => none
    | .enabled => some (str "Enabled")
    | .suspended => some (str "Suspended"))))

/-! ## Lifecycle -/

def LifecycleRuleXml.rule (r : LifecycleRuleXml) : LifecycleRule where
  id := r.id
  status := if r.status = str "Enabled" then .enabled else .disabled
  filterPrefix := r.filter.join
  expiration := r.expiration
  noncurrentVersionExpiration := r.noncurrentVersionExpiration
  abortIncompleteMultipartUpload := r.abortIncompleteMultipartUpload

def LifecycleRule.xml (r : LifecycleRule) : LifecycleRuleXml where
  id := r.id
  status := match r.status with
    | .enabled => str "Enabled"
    | .disabled => str "Disabled"
  filter := r.filterPrefix.map some
  expiration := r.expiration
  noncurrentVersionExpiration := r.noncurrentVersionExpiration
  abortIncompleteMultipartUpload := r.abortIncompleteMultipartUpload

def putBucketLifecycle (env : Env) (bucket : Str) (body : Bytes) : Handler Response := do
  let parsed ← ofExcept ((env.xmlLifecycle body).mapError fun e =>
    (invalidRequest (str "malformed LifecycleConfiguration body: " ++ e)).withResource (bucketPath bucket))
  let r ← op (.metaOp (.updateBucketLifecycle bucket (parsed.map (·.rule))))
  bucketUpdated bucket 200 r

def getBucketLifecycle (bucket : Str) : Handler Response := do
  let cfg ← requireBucket bucket
  ensure (cfg.lifecycleRules ≠ [])
    ((S3Error.new .noSuchLifecycleConfiguration (str "no lifecycle configuration found")).withResource (bucketPath bucket))
  ok (.ofXml (.lifecycle (cfg.lifecycleRules.map (·.xml))))

def deleteBucketLifecycle (bucket : Str) : Handler Response := do
  let r ← op (.metaOp (.updateBucketLifecycle bucket []))
  bucketUpdated bucket 204 r

/-! ## CORS -/

def putBucketCors (env : Env) (bucket : Str) (body : Bytes) : Handler Response := do
  let rules ← ofExcept ((env.xmlCors body).mapError fun e =>
    (invalidRequest (str "malformed CORSConfiguration body: " ++ e)).withResource (bucketPath bucket))
  let r ← op (.metaOp (.updateBucketCors bucket rules))
  bucketUpdated bucket 200 r

def getBucketCors (bucket : Str) : Handler Response := do
  let cfg ← requireBucket bucket
  ensure (cfg.corsRules ≠ [])
    ((S3Error.new .noSuchCorsConfiguration (str "no CORS configuration found")).withResource (bucketPath bucket))
  ok (.ofXml (.cors cfg.corsRules))

def deleteBucketCors (bucket : Str) : Handler Response := do
  let r ← op (.metaOp (.updateBucketCors bucket []))
  bucketUpdated bucket 204 r

end S3lite
