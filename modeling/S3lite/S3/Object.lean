/-
  S3lite.S3.Object — PUT, GET and DELETE of an object (src/s3/object.rs).
-/
import S3lite.S3.Checksum
import S3lite.S3.Lock
import S3lite.S3.Tagging

namespace S3lite

open Handler

/-! ## Conditional requests -/

/-- A header value (one ETag, `*`, or a comma-separated list) against the object's ETag. -/
def etagMatches (raw etag : Str) : Bool :=
  let trimmed := trim raw
  trimmed == str "*" || (splitByte 44 trimmed).any fun p => trim p == etag

def preconditionFailed (bucket key msg : Str) : S3Error :=
  (S3Error.new .preconditionFailed msg).withResource (objectPath bucket key)

/-- The existing object's ETag is among those of the header. -/
def existingMatches (env : Env) (existing : Option Manifest) (raw : Str) : Handler Bool :=
  match existing with
  | none => ok false
  | some m => do
    let etag ← etagOf env m
    ok (etagMatches raw etag)

/-- `If-Match`: an existing object must match. -/
def checkIfMatch (env : Env) (bucket key : Str) (existing : Option Manifest) : Option Str → Handler Unit
  | none => ok ()
  | some im => do
    let pass ← existingMatches env existing im
    ensure (pass = true) (preconditionFailed bucket key (str "If-Match failed"))

/-- `If-None-Match`: no existing object may match. -/
def checkIfNoneMatch (env : Env) (bucket key : Str) (existing : Option Manifest) : Option Str → Handler Unit
  | none => ok ()
  | some inm => do
    let blocks ← existingMatches env existing inm
    ensure (blocks = false) (preconditionFailed bucket key (str "If-None-Match failed"))

/-- The conditions of a PUT are on the object stored under "null". -/
def checkPutPreconditions (env : Env) (bucket key : Str) (headers : HeaderMap) : Handler Unit :=
  let ifMatch := headerString headers (str "if-match")
  let ifNoneMatch := headerString headers (str "if-none-match")
  if ifMatch = none ∧ ifNoneMatch = none then ok ()
  else do
    let found ← op (.metaOp (.getManifest ⟨bucket, key, nullVersionId⟩))
    let existing := found.filter fun m => m.state = .committed ∧ m.kind = .object
    checkIfMatch env bucket key existing ifMatch
    checkIfNoneMatch env bucket key existing ifNoneMatch

def formatHttpDate (env : Env) (t : Time) : Str := env.formatImfDate t

/-- IMF-fixdate, or else RFC 3339. -/
def parseHttpDate (env : Env) (s : Str) : Option Time := (env.parseImfDate s).orElse fun _ => env.parseRfc3339 s

/-- The response that answers a GET before its body: 304 or 412. -/
def evaluatePreconditions (env : Env) (headers : HeaderMap) (etag : Str) (lastModified : Time) (bucket key : Str) :
    Option Response :=
  let ifMatch := headerString headers (str "if-match")
  let ifNoneMatch := headerString headers (str "if-none-match")
  let ifModified := (headerString headers (str "if-modified-since")).bind (parseHttpDate env)
  let ifUnmodified := (headerString headers (str "if-unmodified-since")).bind (parseHttpDate env)
  if ifMatch.any fun im => !etagMatches im etag then
    some (.ofError (preconditionFailed bucket key (str "If-Match failed")))
  else if ifNoneMatch.any fun inm => etagMatches inm etag then some (.ofStatus 304)
  else if ifUnmodified.any fun t => decide (t < lastModified) then
    some (.ofError (preconditionFailed bucket key (str "If-Unmodified-Since failed")))
  else if ifModified.any fun t => decide (lastModified ≤ t) then some (.ofStatus 304)
  else none

/-! ## Range -/

def parseU64 (s : Str) (msg : Str) : Except S3Error Nat :=
  match parseUnsigned (2 ^ 64) s with
  | some n => .ok n
  | none => .error (invalid msg)

/-- First and last byte; `none` is the whole object, also for a range outside it. -/
def parseRangeHeader (headers : HeaderMap) (objectSize : Nat) : Except S3Error (Option (Nat × Nat)) := do
  let lastIndex := objectSize - 1
  match headers.get (str "range") with
  | none => .ok none
  | some v =>
    match toStr v with
    | none => .error (invalid (str "invalid Range header"))
    | some v =>
      match stripPrefix (str "bytes=") v with
      | none => .error (invalid (str "Range must use bytes unit"))
      | some spec =>
        if spec.contains 44 then .error (invalid (str "multi-range requests are not supported"))
        else match splitOnce 45 spec with
          | none => .error (invalid (str "Range must contain '-'"))
          | some (startStr, endStr) =>
            let bounds ← match startStr.isEmpty, endStr.isEmpty with
              | false, false => do
                let s ← parseU64 startStr (str "bad Range start")
                let e ← parseU64 endStr (str "bad Range end")
                Except.ok (some (s, min e lastIndex))
              | false, true => do
                let s ← parseU64 startStr (str "bad Range start")
                .ok (some (s, lastIndex))
              | true, false => do
                let suffix ← parseU64 endStr (str "bad suffix Range")
                if suffix = 0 ∨ objectSize = 0 then .ok none else .ok (some (objectSize - suffix, lastIndex))
              | true, true => .error (invalid (str "Range must have at least one bound"))
            .ok (bounds.filter fun b => ¬ (objectSize = 0 ∨ lastIndex < b.1 ∨ b.2 < b.1))

/-! ## PUT -/

/-- The manifest of an object PUT in one piece. -/
def singlePutManifest (key : ManifestKey) (r : PartWriteResult) (headers : HeaderMap) (tags : Table Str Str)
    (checksum : Option AdditionalChecksum) (lock : Option ObjectLock) (now : Time) : Manifest where
  key := key
  state := .committed
  kind := .object
  uploadMode := .singlePut
  parts := [partRef 1 r]
  size := r.size
  contentType := headerString headers (str "content-type")
  userMetadata := extractUserMetadata headers
  tags := tags
  additionalChecksum := checksum
  storageClass := str "STANDARD"
  objectLock := lock
  createdAt := now
  lastModified := now
  uploadId := none

def withChecksumHeader (env : Env) (resp : Response) : Option AdditionalChecksum → Response
  | some ac => resp.setHeader (Checksum.headerNameFor ac.algorithm) (Checksum.encodeValue env ac.value)
  | none => resp

def verifyGiven (env : Env) (body : Bytes) : Option AdditionalChecksum → Except S3Error Unit
  | some ac => Checksum.verify env ac body
  | none => .ok ()

def putObject (env : Env) (bucket key : Str) (headers : HeaderMap) (body : Bytes) : Handler Response := do
  let resource := objectPath bucket key
  let bucketCfg ← requireBucket bucket
  checkPutPreconditions env bucket key headers
  let expected ← ofExcept (parseContentMd5 env .invalidRequest headers)
  ensure (expected.all fun md5 => md5 = env.md5 body)
    ((S3Error.new .badDigest (str "Content-MD5 header did not match computed digest")).withResource resource)
  let additionalChecksum ← ofExcept ((Checksum.parseRequestChecksum env headers).mapError (·.withResource resource))
  ofExcept ((verifyGiven env body additionalChecksum).mapError (·.withResource resource))
  let partResult ← op (.writeBytes body)
  let versionId ← nextVersionId bucketCfg.versioning
  let tags ← ofExcept ((parseXAmzTagging headers).mapError (·.withResource resource))
  let headerLock ← ofExcept ((parseLockHeaders env headers).mapError (·.withResource resource))
  let objectLock ← lockForPut bucketCfg.objectLock headerLock
  let now ← op .nowUtc
  let manifest := singlePutManifest ⟨bucket, key, versionId⟩ partResult headers tags additionalChecksum objectLock now
  let etag ← etagOf env manifest
  let r ← op (.metaOp (.putManifest manifest))
  let effect ← mapErr mapMetaErr r
  gcFreedParts effect.freedParts
  let resp := (Response.ofStatus 200).setHeader (str "etag") etag
  let resp := if bucketCfg.versioning = .enabled then resp.setHeader (str "x-amz-version-id") versionId else resp
  ok (withChecksumHeader env resp additionalChecksum)

/-! ## GET -/

/-- `PartStore::open_read` on a part that is not there. -/
def partOpenFailed (prefix_ : Str) : S3Error :=
  .new .internalError (prefix_ ++ str "io: No such file or directory (os error 2)")

/-- The parts' bytes, concatenated. -/
def readParts : List PartRef → Handler Bytes
  | [] => ok []
  | p :: ps => do
    let file ← op (.readPart p.hash)
    let data ← orFail file (partOpenFailed (str "part open: "))
    let rest ← readParts ps
    ok (data ++ rest)

/-- `&buf[start..=end]` -/
def sliceInclusive (buf : Bytes) (first last : Nat) : Handler Bytes :=
  if last < buf.length then ok ((buf.take (last + 1)).drop first) else panicked

def objectHeaders (env : Env) (m : Manifest) (etag : Str) (range : Option (Nat × Nat)) (resp : Response) : Response :=
  let resp := resp.setHeader (str "etag") etag
  let resp := resp.setHeader (str "last-modified") (formatHttpDate env m.lastModified)
  let resp := resp.setHeader (str "x-amz-version-id") m.key.versionId
  let resp := resp.setHeader (str "content-type") (m.contentType.getD (str "binary/octet-stream"))
  let resp := match range with
    | some (first, last) =>
      (resp.setHeader (str "content-range")
        (str "bytes " ++ natStr first ++ str "-" ++ natStr last ++ str "/" ++ natStr m.size)).setHeader
          (str "content-length") (natStr (last - first + 1))
    | none => resp.setHeader (str "content-length") (natStr m.size)
  let resp := resp.setHeader (str "accept-ranges") (str "bytes")
  let resp := resp.setHeader (str "x-amz-storage-class") m.storageClass
  -- a checksum is of the whole object, so a partial response has none
  let resp := if range.isNone then withChecksumHeader env resp m.additionalChecksum else resp
  m.userMetadata.rows.foldl (fun resp kv => resp.setHeader (str "x-amz-meta-" ++ kv.1) kv.2) resp

/-- The committed version the request names: by id, or the latest. -/
def findVersion (bucket key : Str) : Option Str → Handler Manifest
  | some vid => do
    let found ← op (.metaOp (.getManifest ⟨bucket, key, vid⟩))
    orFail (found.filter fun m => m.state = .committed) (noSuchKey bucket key)
  | none => do
    let found ← op (.metaOp (.getLatestVersion bucket key))
    orFail found (noSuchKey bucket key)

/-- The bytes of the object, or of the range; a HEAD reads none. -/
def readBody (m : Manifest) (bodyOnlyHeaders : Bool) (range : Option (Nat × Nat)) : Handler Bytes :=
  if bodyOnlyHeaders then ok []
  else do
    let buf ← readParts m.parts
    match range with
    | some (first, last) => sliceInclusive buf first last
    | none => ok buf

def getOrHeadObject (env : Env) (bucket key : Str) (versionId : Option Str) (headers : HeaderMap)
    (bodyOnlyHeaders : Bool) : Handler Response := do
  let _ ← requireBucket bucket
  let manifest ← findVersion bucket key versionId
  ensure (manifest.kind = .object)
    (if versionId = none then noSuchKey bucket key
     else (invalidRequest (str "the specified version is a delete marker")).withResource (objectPath bucket key))
  let etag ← etagOf env manifest
  match evaluatePreconditions env headers etag manifest.lastModified bucket key with
  | some shortCircuit => ok shortCircuit
  | none => do
    let range ← ofExcept (parseRangeHeader headers manifest.size)
    let bodyBytes ← readBody manifest bodyOnlyHeaders range
    ok (objectHeaders env manifest etag range ⟨if range.isSome then 206 else 200, [], .bytes bodyBytes⟩)

/-! ## DELETE -/

def lockedError (bucket key : Str) : S3Error :=
  (S3Error.new .accessForbidden (str "object is locked by retention or legal hold")).withResource (objectPath bucket key)

/-- The lock is consulted with the clock's reading, when there is one. -/
def checkNotLocked (bucket key : Str) (m : Option Manifest) : Handler Unit :=
  match m.bind (·.objectLock) with
  | none => ok ()
  | some lock => do
    let now ← op .nowUtc
    ensure (lock.forbidsDelete now = false) (lockedError bucket key)

/-- Delete the row and collect what it freed; `false` when there was none. -/
def removeManifest (key : ManifestKey) : Handler Bool := do
  let r ← op (.metaOp (.deleteManifest key))
  match r with
  | .ok effect => do
    gcFreedParts effect.freedParts
    ok true
  | .error (.manifestNotFound _) => ok false
  | .error e => fail (mapMetaErr e)

def deleteSpecificVersion (bucket key versionId : Str) : Handler Response := do
  let target : ManifestKey := ⟨bucket, key, versionId⟩
  let found ← op (.metaOp (.getManifest target))
  let isDeleteMarker := found.any fun m => decide (m.kind = .tombstone)
  checkNotLocked bucket key found
  let removed ← removeManifest target
  let resp := (Response.ofStatus 204).setHeader (str "x-amz-version-id") versionId
  ok (if removed && isDeleteMarker then resp.setHeader (str "x-amz-delete-marker") (str "true") else resp)

/-- An unversioned DELETE where versioning was switched on: a delete marker. -/
def insertDeleteMarker (bucket key : Str) (versioning : VersioningState) : Handler Response := do
  let versionId ← nextVersionId versioning
  let now ← op .nowUtc
  let r ← op (.metaOp (.putManifest (tombstone ⟨bucket, key, versionId⟩ now)))
  let effect ← mapErr mapMetaErr r
  gcFreedParts effect.freedParts
  let resp := (Response.ofStatus 204).setHeader (str "x-amz-delete-marker") (str "true")
  ok (if versioning = .enabled then resp.setHeader (str "x-amz-version-id") versionId else resp)

def deleteObject (bucket key : Str) (versionId : Option Str) : Handler Response := do
  let bucketCfg ← requireBucket bucket
  match versionId with
  | some vid => deleteSpecificVersion bucket key vid
  | none =>
    match bucketCfg.versioning with
    | .off => do
      let target : ManifestKey := ⟨bucket, key, nullVersionId⟩
      let current ← op (.metaOp (.getManifest target))
      checkNotLocked bucket key current
      let _ ← removeManifest target
      ok (.ofStatus 204)
    | .enabled | .suspended => insertDeleteMarker bucket key bucketCfg.versioning

end S3lite
