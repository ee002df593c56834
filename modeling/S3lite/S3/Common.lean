/-
  S3lite.S3.Common — what the handler modules of src/s3 share: the operations of the two
  stores as handler steps, and the helpers each module keeps its own copy of.
-/
import S3lite.Server.Handler

namespace S3lite

open Handler

/-- `const NULL_VERSION_ID` -/
def nullVersionId : Str := str "null"

/-- Enabled: a fresh uuid. Off or Suspended: the literal "null". -/
def nextVersionId : VersioningState → Handler Str
  | .enabled => op .newUuid
  | .off | .suspended => ok nullVersionId

def noSuchBucket (bucket : Str) : S3Error :=
  (S3Error.new .noSuchBucket (str "bucket does not exist")).withResource (bucketPath bucket)

def requireBucket (bucket : Str) : Handler BucketConfig := do
  let cfg ← op (.metaOp (.getBucket bucket))
  orFail cfg (noSuchBucket bucket)

def noSuchKey (bucket key : Str) : S3Error :=
  (S3Error.new .noSuchKey (str "key does not exist")).withResource (objectPath bucket key)

/-- `S3ErrorCode::InvalidArgument` and a message. -/
def invalid (msg : Str) : S3Error := S3Error.new .invalidArgument msg

def invalidRequest (msg : Str) : S3Error := S3Error.new .invalidRequest msg

/-- One hash: mark it (which checks that it has no references), unlink the file, drop the
    row. A hash that gained a reference or has no row is left alone. -/
def collectPart (hash : Hash) : Handler Bool := do
  let granted ← op (.metaOp (.markPartGcPending hash))
  match granted with
  | .ok true =>
    op (.deletePart hash)
    op (.metaOp (.removePart hash))
    pure true
  | _ => pure false

/-- `gc_freed_parts` -/
def gcFreedParts : List Hash → Handler Unit
  | [] => ok ()
  | hash :: freed => do
    let _ ← collectPart hash
    gcFreedParts freed

/-- `Manifest::etag`, which may panic. -/
def etagOf (env : Env) (m : Manifest) : Handler Str :=
  match m.etag env.md5 env.debug with
  | some etag => ok etag
  | none => panicked

/-- `parse_content_md5`; the modules answer a malformed header with different codes. -/
def parseContentMd5 (env : Env) (code : S3ErrorCode) (headers : HeaderMap) : Except S3Error (Option Md5) :=
  match headers.get (str "content-md5") with
  | none => .ok none
  | some v =>
    match toStr v with
    | none => .error (.new code (str "invalid Content-MD5 header"))
    | some s =>
      match env.base64Decode s with
      | none => .error (.new code (str "Content-MD5 not valid base64"))
      | some bytes =>
        if h : bytes.length = 16 then .ok (some ⟨⟨bytes⟩, h⟩)
        else .error (.new code (str "Content-MD5 must be 16 bytes"))

def addUserMetadata (out : Table Str Str) (header : Str × Bytes) : Table Str Str :=
  match stripPrefix (str "x-amz-meta-") header.1, toStr header.2 with
  | some suffix, some value => out.insert suffix value
  | _, _ => out

def extractUserMetadata (headers : HeaderMap) : Table Str Str := headers.foldl addUserMetadata .empty

/-- The row of the given version id, or the latest version. -/
def lookupVersion (bucket key : Str) : Option Str → Handler (Option Manifest)
  | some vid => op (.metaOp (.getManifest ⟨bucket, key, vid⟩))
  | none => op (.metaOp (.getLatestVersion bucket key))

/-- `require_object_with_version` and `load_target`: the committed object the request names. -/
def loadTarget (bucket key : Str) (versionId : Option Str) : Handler Manifest := do
  let result ← lookupVersion bucket key versionId
  orFail (result.filter fun m => m.state = .committed ∧ m.kind = .object) (noSuchKey bucket key)

/-- The handlers that replace a field of the bucket's configuration answer alike. -/
def bucketUpdated (bucket : Str) (status : Nat) : Except MetaError Unit → Handler Response
  | .ok () => ok (.ofStatus status)
  | .error (.bucketNotFound _) => fail (noSuchBucket bucket)
  | .error e => fail (mapMetaErr e)

/-- A manifest that has no parts yet, or never will. -/
def emptyManifest (key : ManifestKey) (state : ManifestState) (kind : ManifestKind) (now : Time) : Manifest where
  key := key
  state := state
  kind := kind
  uploadMode := .singlePut
  parts := []
  size := 0
  contentType := none
  userMetadata := .empty
  tags := .empty
  additionalChecksum := none
  storageClass := str "STANDARD"
  objectLock := none
  createdAt := now
  lastModified := now
  uploadId := none

/-- A delete marker. -/
def tombstone (key : ManifestKey) (now : Time) : Manifest := emptyManifest key .committed .tombstone now

def partRef (partNumber : Nat) (r : PartWriteResult) : PartRef := ⟨partNumber, r.hash, r.md5, r.size⟩

def etagOfMd5 (md5 : Md5) : Str := quote (hexEncode md5.toList)

end S3lite
