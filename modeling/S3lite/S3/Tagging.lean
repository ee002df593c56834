/-
  S3lite.S3.Tagging — object tags (src/s3/tagging.rs).
-/
import S3lite.S3.Common

namespace S3lite

open Handler

def getObjectTagging (bucket key : Str) (versionId : Option Str) : Handler Response := do
  let manifest ← loadTarget bucket key versionId
  ok (.ofXml (.tagging manifest.tags.rows))

def putObjectTagging (env : Env) (bucket key : Str) (versionId : Option Str) (body : Bytes) : Handler Response := do
  let manifest ← loadTarget bucket key versionId
  let parsed ← ofExcept ((env.xmlTagging body).mapError fun e =>
    (invalidRequest (str "malformed Tagging body: " ++ e)).withResource (objectPath bucket key))
  let tags := parsed.foldl (fun tags t => tags.insert t.1 t.2) .empty
  let r ← op (.metaOp (.updateManifestTags manifest.key tags))
  mapErr mapMetaErr r
  ok (.ofStatus 200)

def deleteObjectTagging (bucket key : Str) (versionId : Option Str) : Handler Response := do
  let manifest ← loadTarget bucket key versionId
  let r ← op (.metaOp (.updateManifestTags manifest.key .empty))
  mapErr mapMetaErr r
  ok (.ofStatus 204)

/-- One `k=v` of the header; a pair with an empty key is skipped. -/
def addTag (out : Table Str Str) (pair : Str) : Table Str Str :=
  let kv := (splitOnce 61 pair).getD (pair, [])
  let key := percentDecode true kv.1
  if key.isEmpty then out else out.insert key (percentDecode true kv.2)

def parseXAmzTagging (headers : HeaderMap) : Except S3Error (Table Str Str) :=
  match headers.get (str "x-amz-tagging") with
  | none => .ok .empty
  | some v =>
    match toStr v with
    | none => .error (invalidRequest (str "invalid x-amz-tagging header"))
    | some raw => .ok (if raw.isEmpty then .empty else (splitByte 38 raw).foldl addTag .empty)

end S3lite
