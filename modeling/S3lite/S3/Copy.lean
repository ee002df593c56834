/-
  S3lite.S3.Copy — server-side copy of an object, and of a range of one into an upload
  (src/s3/copy.rs).
-/
import S3lite.S3.Object

namespace S3lite

open Handler

structure CopySource where
  bucket : Str
  key : Str
  versionId : Option Str
  deriving DecidableEq

/-- `bucket/key` or `/bucket/key`, percent-encoded, with an optional `?versionId=…`. -/
def parseCopySource (raw : Str) : Except S3Error CopySource :=
  let trimmed := (stripPrefix (str "/") raw).getD raw
  let (pathPart, versionPart) := match splitOnce 63 trimmed with
    | some (p, v) => (p, some v)
    | none => (trimmed, none)
  match splitOnce 47 pathPart with
  | none => .error (invalid (str "x-amz-copy-source must be bucket/key"))
  | some (bucketRaw, keyRaw) =>
    if bucketRaw.isEmpty || keyRaw.isEmpty then
      .error (invalid (str "x-amz-copy-source bucket and key must be non-empty"))
    else
      let versionId := versionPart.bind fun v => (splitByte 38 v).findSome? fun pair =>
        (splitOnce 61 pair).bind fun kv => if kv.1 = str "versionId" then some (percentDecode false kv.2) else none
      .ok ⟨percentDecode false bucketRaw, percentDecode false keyRaw, versionId⟩

/-- The committed object to copy: by id, or the latest version. -/
def resolveSource (source : CopySource) : Handler Manifest := do
  let found ← lookupVersion source.bucket source.key source.versionId
  orFail (found.filter fun m => m.state = .committed ∧ m.kind = .object)
    ((S3Error.new .noSuchKey (str "copy source does not exist")).withResource (objectPath source.bucket source.key))

def withSourceVersion (source : CopySource) (resp : Response) : Response :=
  match source.versionId with
  | some vid => resp.setHeader (str "x-amz-copy-source-version-id") vid
  | none => resp

/-! ## Object -/

/-- The copy of a manifest: its bytes under a new key. A lock is not inherited. -/
def copyManifest (src : Manifest) (key : ManifestKey) (headers : HeaderMap) (now : Time) : Manifest where
  key := key
  state := .committed
  kind := .object
  uploadMode := src.uploadMode
  parts := src.parts
  size := src.size
  contentType :=
    if headerString headers (str "x-amz-metadata-directive") = some (str "REPLACE") then
      headerString headers (str "content-type")
    else src.contentType
  userMetadata :=
    if headerString headers (str "x-amz-metadata-directive") = some (str "REPLACE") then extractUserMetadata headers
    else src.userMetadata
  tags := if headerString headers (str "x-amz-tagging-directive") = some (str "REPLACE") then .empty else src.tags
  additionalChecksum := src.additionalChecksum
  storageClass := src.storageClass
  objectLock := none
  createdAt := now
  lastModified := now
  uploadId := none

def copyObject (env : Env) (destBucket destKey : Str) (source : CopySource) (headers : HeaderMap) : Handler Response := do
  let found ← op (.metaOp (.getBucket destBucket))
  let destCfg ← orFail found
    ((S3Error.new .noSuchBucket (str "destination bucket does not exist")).withResource (bucketPath destBucket))
  let sourceManifest ← resolveSource source
  let destVersionId ← nextVersionId destCfg.versioning
  let now ← op .nowUtc
  let manifest := copyManifest sourceManifest ⟨destBucket, destKey, destVersionId⟩ headers now
  let etag ← etagOf env manifest
  let r ← op (.metaOp (.putManifest manifest))
  let effect ← mapErr mapMetaErr r
  gcFreedParts effect.freedParts
  let resp := Response.ofXml (.copyObjectResult etag (env.formatRfc3339 now))
  let resp :=
    if destCfg.versioning = .enabled then resp.setHeader (str "x-amz-version-id") destVersionId else resp
  ok (withSourceVersion source resp)

/-! ## Part -/

/-- `bytes=N-M`, inside the source. -/
def parseCopyRange (value : Str) (sourceSize : Nat) : Except S3Error (Nat × Nat) :=
  match stripPrefix (str "bytes=") value with
  | none => .error (invalid (str "x-amz-copy-source-range must use bytes unit"))
  | some spec =>
    match splitOnce 45 spec with
    | none => .error (invalid (str "x-amz-copy-source-range must contain '-'"))
    | some (startStr, endStr) =>
      if startStr.isEmpty || endStr.isEmpty then
        .error (invalid (str "x-amz-copy-source-range must be inclusive bytes=N-M"))
      else do
        let first ← parseU64 startStr (str "invalid copy-source-range start")
        let last ← parseU64 endStr (str "invalid copy-source-range end")
        if sourceSize = 0 then .error (invalid (str "source object is empty"))
        else if last < first ∨ sourceSize ≤ last then .error (invalid (str "copy-source-range out of bounds"))
        else .ok (first, last)

/-- The part's last byte, `cursor + p.size - 1` at `u64`: the sum may overflow and an empty
    first part underflows, which panics in a debug build and wraps in a release build. -/
def partEnd (env : Env) (cursor size : Nat) : Handler Nat :=
  if 0 < cursor + size ∧ cursor + size < 2 ^ 64 then ok (cursor + size - 1)
  else if env.debug then panicked
  else ok ((cursor + size + (2 ^ 64 - 1)) % 2 ^ 64)

/-- `&buf[start..end]` -/
def sliceExclusive (buf : Bytes) (start end_ : Nat) : Handler Bytes :=
  if start ≤ end_ ∧ end_ ≤ buf.length then ok ((buf.take end_).drop start) else panicked

/-- The loop of `read_source_range`, at the byte where the next part starts. -/
def readRange (env : Env) (first last : Nat) (cursor : Nat) : List PartRef → Handler Bytes
  | [] => ok []
  | p :: ps => do
    let end_ ← partEnd env cursor p.size
    let next := (cursor + p.size) % 2 ^ 64
    if end_ < first ∨ last < cursor then readRange env first last next ps
    else do
      let localStart := if cursor < first then first - cursor else 0
      let localEnd := if last < end_ then last - cursor + 1 else p.size
      let file ← op (.readPart p.hash)
      let buf ← orFail file (partOpenFailed (str "source part open: "))
      let chunk ← sliceExclusive buf localStart localEnd
      let rest ← readRange env first last next ps
      ok (chunk ++ rest)

def readSourceRange (env : Env) (m : Manifest) (first last : Nat) : Handler Bytes := readRange env first last 0 m.parts

def noSuchUpload (bucket key uploadId : Str) : S3Error :=
  (S3Error.new .noSuchUpload (str "upload id " ++ uploadId ++ str " not found")).withResource (objectPath bucket key)

def mapUploadMetaErr (bucket key uploadId : Str) : MetaError → S3Error
  | .manifestNotFound _ => noSuchUpload bucket key uploadId
  | other => mapMetaErr other

def partNumberError (bucket key : Str) : S3Error :=
  (invalid (str "part-number must be between 1 and 10000")).withResource (objectPath bucket key)

/-- The range to copy: the one requested, or the whole source. -/
def copySourceRange (bucket key : Str) (headers : HeaderMap) (sourceSize : Nat) : Except S3Error (Nat × Nat) :=
  match headerString headers (str "x-amz-copy-source-range") with
  | some r => parseCopyRange r sourceSize
  | none =>
    if sourceSize = 0 then
      .error ((invalid (str "cannot copy a zero-byte source as a part")).withResource (objectPath bucket key))
    else .ok (0, sourceSize - 1)

def uploadPartCopy (env : Env) (destBucket destKey uploadId : Str) (partNumber : Nat) (source : CopySource)
    (headers : HeaderMap) : Handler Response := do
  ensure (0 < partNumber ∧ partNumber ≤ 10000) (partNumberError destBucket destKey)
  let sourceManifest ← resolveSource source
  let range ← ofExcept (copySourceRange destBucket destKey headers sourceManifest.size)
  let payload ← readSourceRange env sourceManifest range.1 range.2
  let partResult ← op (.writeBytes payload)
  let r ← op (.metaOp (.appendPart ⟨destBucket, destKey, uploadId⟩ (partRef partNumber partResult)))
  let effect ← mapErr (mapUploadMetaErr destBucket destKey uploadId) r
  gcFreedParts effect.freedParts
  let now ← op .nowUtc
  ok (withSourceVersion source (.ofXml (.copyPartResult (etagOfMd5 partResult.md5) (env.formatRfc3339 now))))

end S3lite
