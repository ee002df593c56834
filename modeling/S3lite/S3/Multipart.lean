/-
  S3lite.S3.Multipart — multipart uploads (src/s3/multipart.rs).
-/
import S3lite.S3.Copy

namespace S3lite

open Handler

def uploadManifest (key : ManifestKey) (headers : HeaderMap) (now : Time) : Manifest where
  key := key
  state := .inProgress
  kind := .object
  uploadMode := .multipart
  parts := []
  size := 0
  contentType := headerString headers (str "content-type")
  userMetadata := extractUserMetadata headers
  tags := .empty
  additionalChecksum := none
  storageClass := str "STANDARD"
  objectLock := none
  createdAt := now
  lastModified := now
  uploadId := some key.versionId

def createMultipartUpload (bucket key : Str) (headers : HeaderMap) : Handler Response := do
  let _ ← requireBucket bucket
  let uploadId ← op .newUuid
  let now ← op .nowUtc
  let r ← op (.metaOp (.putManifest (uploadManifest ⟨bucket, key, uploadId⟩ headers now)))
  let effect ← mapErr mapMetaErr r
  gcFreedParts effect.freedParts
  ok (.ofXml (.initiateMultipartUpload bucket key uploadId))

def uploadPart (env : Env) (bucket key uploadId : Str) (partNumber : Nat) (headers : HeaderMap) (body : Bytes) :
    Handler Response := do
  ensure (0 < partNumber ∧ partNumber ≤ 10000) (partNumberError bucket key)
  let expected ← ofExcept (parseContentMd5 env .invalidArgument headers)
  ensure (expected.all fun md5 => md5 = env.md5 body)
    ((S3Error.new .badDigest (str "Content-MD5 mismatch")).withResource (objectPath bucket key))
  let partResult ← op (.writeBytes body)
  let r ← op (.metaOp (.appendPart ⟨bucket, key, uploadId⟩ (partRef partNumber partResult)))
  let effect ← mapErr (mapUploadMetaErr bucket key uploadId) r
  gcFreedParts effect.freedParts
  ok ((Response.ofStatus 200).setHeader (str "etag") (etagOfMd5 partResult.md5))

/-! ## Completion -/

/-- The parts are listed by strictly ascending number, all above `lastN`. -/
def partsSorted (lastN : Nat) : List (Nat × Str) → Bool
  | [] => true
  | p :: ps => decide (lastN < p.1) && partsSorted p.1 ps

/-- The stored parts the request lists, each checked against its ETag. -/
def selectParts (bucket key : Str) (stored : List PartRef) : List (Nat × Str) → Except S3Error (List PartRef)
  | [] => .ok []
  | req :: reqs =>
    match stored.find? fun p => p.partNumber = req.1 with
    | none =>
      .error ((invalid (str "part " ++ natStr req.1 ++ str " not found in upload")).withResource (objectPath bucket key))
    | some p =>
      if trim req.2 = etagOfMd5 p.md5 then (selectParts bucket key stored reqs).map fun ps => p :: ps
      else .error ((invalid (str "ETag mismatch on part " ++ natStr req.1)).withResource (objectPath bucket key))

/-- The object an upload becomes: stored under "null", with the listed parts. -/
def completedManifest (bucket key : Str) (up : Manifest) (selected : List PartRef) (now : Time) : Manifest where
  key := ⟨bucket, key, nullVersionId⟩
  state := .committed
  kind := .object
  uploadMode := .multipart
  parts := selected
  size := sizeSum selected
  contentType := up.contentType
  userMetadata := up.userMetadata
  tags := up.tags
  additionalChecksum := up.additionalChecksum
  storageClass := up.storageClass
  objectLock := up.objectLock
  createdAt := up.createdAt
  lastModified := now
  uploadId := none

/-- The upload's manifest, while it is in progress. -/
def findUpload (bucket key uploadId : Str) : Handler Manifest := do
  let found ← op (.metaOp (.getManifest ⟨bucket, key, uploadId⟩))
  orFail (found.filter fun m => m.state = .inProgress) (noSuchUpload bucket key uploadId)

/-- The sizes' `u64` sum overflows: a panic in a debug build. -/
def checkSizeSum (env : Env) (selected : List PartRef) : Handler Unit :=
  if env.debug ∧ 2 ^ 64 ≤ (selected.map (·.size)).sum then panicked else ok ()

def completeMultipartUpload (env : Env) (bucket key uploadId : Str) (body : Bytes) : Handler Response := do
  let request ← ofExcept ((env.xmlCompleteMultipartUpload body).mapError fun e =>
    invalid (str "malformed CompleteMultipartUpload body: " ++ e))
  ensure (request ≠ []) (invalid (str "CompleteMultipartUpload must list at least one part"))
  ensure (partsSorted 0 request = true) (invalid (str "CompleteMultipartUpload parts must be sorted by part number"))
  let up ← findUpload bucket key uploadId
  let selected ← ofExcept (selectParts bucket key up.parts request)
  checkSizeSum env selected
  let now ← op .nowUtc
  let committed := completedManifest bucket key up selected now
  let etag ← etagOf env committed
  let r ← op (.metaOp (.completeMultipartUpload ⟨bucket, key, uploadId⟩ committed))
  let effect ← mapErr mapMetaErr r
  gcFreedParts effect.freedParts
  ok (.ofXml (.completeMultipartUpload (objectPath bucket key) bucket key etag))

/-- The row is checked to be an upload in progress before it is deleted. -/
def abortMultipartUpload (bucket key uploadId : Str) : Handler Response := do
  let _ ← findUpload bucket key uploadId
  let r ← op (.metaOp (.deleteManifest ⟨bucket, key, uploadId⟩))
  let effect ← mapErr mapMetaErr r
  gcFreedParts effect.freedParts
  ok (.ofStatus 204)

def listParts (env : Env) (bucket key uploadId : Str) : Handler Response := do
  let up ← findUpload bucket key uploadId
  ok (.ofXml (.listParts bucket key uploadId 1000 false
    (up.parts.map fun p => ⟨p.partNumber, etagOfMd5 p.md5, p.size, env.formatRfc3339 up.lastModified⟩)))

end S3lite
