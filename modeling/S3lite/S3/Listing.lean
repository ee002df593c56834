/-
  S3lite.S3.Listing — the listing requests: objects (V1 and V2) and versions
  (src/s3/listing.rs).
-/
import S3lite.Base.Encoding
import S3lite.S3.Common

namespace S3lite

open Handler

/-! ## Parameters -/

/-- Query parameters, decoded; of two of one name, the last counts. -/
abbrev Params := Table Str Str

def parseQuery (query : Str) : Params :=
  if query.isEmpty then .empty
  else (splitByte 38 query).foldl (fun params pair =>
    let kv := (splitOnce 61 pair).getD (pair, [])
    params.insert (percentDecode true kv.1) (percentDecode true kv.2)) .empty

/-- `DEFAULT_MAX_KEYS` and `MAX_MAX_KEYS` -/
def maxMaxKeys : Nat := 1000

def parseMaxKeys : Option Str → Except S3Error Nat
  | none => .ok maxMaxKeys
  | some v =>
    match parseUnsigned (2 ^ 32) v with
    | none => .error (invalid (str "max-keys is not a number"))
    | some n => if n = 0 then .error (invalid (str "max-keys must be >= 1")) else .ok (min n maxMaxKeys)

def parseEncoding : Option Str → Except S3Error (Option Str)
  | none => .ok none
  | some v =>
    if v = str "url" then .ok (some (str "url"))
    else .error (invalid (str "unsupported encoding-type '" ++ v ++ str "'"))

def isUnreserved (b : UInt8) : Bool :=
  (48 ≤ b && b ≤ 57) || (65 ≤ b && b ≤ 90) || (97 ≤ b && b ≤ 122) || b == 45 || b == 95 || b == 46 || b == 126

/-- All but the unreserved characters as `%XX`. -/
def urlPercentEncode (s : Str) : Str :=
  s.flatMap fun b => if isUnreserved b then [b] else [37, hexUpperDigit (b.toNat / 16), hexUpperDigit (b.toNat % 16)]

def encodeValue (value : Str) (encoding : Option Str) : Str :=
  if encoding = some (str "url") then urlPercentEncode value else value

/-- An absent parameter is the empty string. -/
def Params.getString (params : Params) (name : Str) : Str := (Table.get params name).getD []

def Params.delimiter (params : Params) : Option Str := (Table.get params (str "delimiter")).filter fun s => !s.isEmpty

/-- A key to start after, when it is not empty. -/
def afterMarker (marker : Str) : Option ListCursor := if marker.isEmpty then none else some (.afterKey marker)

def ListCursor.text : ListCursor → Str
  | .afterKey k => k
  | .afterPrefix p => p

/-! ## Objects -/

/-- `split_items` -/
def splitItems (env : Env) (encoding : Option Str) : List ListItem → Handler (List ObjectContent × List Str)
  | [] => ok ([], [])
  | .object m :: items => do
    let etag ← etagOf env m
    let rest ← splitItems env encoding items
    ok (⟨encodeValue m.key.key encoding, env.formatRfc3339 m.lastModified, etag, m.size, m.storageClass⟩ :: rest.1, rest.2)
  | .commonPrefix p :: items => do
    let rest ← splitItems env encoding items
    ok (rest.1, encodeValue p encoding :: rest.2)

/-- A continuation token overrides start-after. -/
def listV2Cursor (env : Env) (params : Params) : Except S3Error (Option ListCursor) :=
  match Table.get params (str "continuation-token") with
  | some token => ((env.decodeContinuationToken token).mapError invalid).map some
  | none => .ok ((Table.get params (str "start-after")).map .afterKey)

def listV2 (env : Env) (bucket : Str) (params : Params) : Handler Response := do
  let pre := params.getString (str "prefix")
  let maxKeys ← ofExcept (parseMaxKeys (Table.get params (str "max-keys")))
  let encoding ← ofExcept (parseEncoding (Table.get params (str "encoding-type")))
  let cursor ← ofExcept (listV2Cursor env params)
  let page ← op (.metaOp (.listObjects ⟨bucket, pre, params.delimiter, cursor, maxKeys⟩))
  let split ← splitItems env encoding page.items
  ok (.ofXml (.listBucketV2
    { name := bucket
      pre := encodeValue pre encoding
      keyCount := split.1.length + split.2.length
      maxKeys := maxKeys
      delimiter := params.delimiter.map (encodeValue · encoding)
      isTruncated := page.truncated
      encodingType := encoding
      continuationToken := Table.get params (str "continuation-token")
      nextContinuationToken := page.nextCursor.map env.encodeContinuationToken
      startAfter := Table.get params (str "start-after")
      contents := split.1
      commonPrefixes := split.2 }))

/-- The next marker is given only with a delimiter. -/
def listV1 (env : Env) (bucket : Str) (params : Params) : Handler Response := do
  let pre := params.getString (str "prefix")
  let maxKeys ← ofExcept (parseMaxKeys (Table.get params (str "max-keys")))
  let encoding ← ofExcept (parseEncoding (Table.get params (str "encoding-type")))
  let marker := params.getString (str "marker")
  let page ← op (.metaOp (.listObjects ⟨bucket, pre, params.delimiter, afterMarker marker, maxKeys⟩))
  let split ← splitItems env encoding page.items
  ok (.ofXml (.listBucketV1
    { name := bucket
      pre := encodeValue pre encoding
      marker := marker
      maxKeys := maxKeys
      delimiter := params.delimiter.map (encodeValue · encoding)
      isTruncated := page.truncated
      encodingType := encoding
      nextMarker :=
        if page.truncated && params.delimiter.isSome then page.nextCursor.map fun c => encodeValue c.text encoding
        else none
      contents := split.1
      commonPrefixes := split.2 }))

def listObjects (env : Env) (bucket query : Str) : Handler Response := do
  let _ ← requireBucket bucket
  let params := parseQuery query
  if Table.get params (str "list-type") = some (str "2") then listV2 env bucket params else listV1 env bucket params

/-! ## Versions -/

/-- Sort the entries of a page into versions and delete markers. -/
def splitVersions (env : Env) (encoding : Option Str) :
    List ListObjectVersionEntry → Handler (List ObjectVersion × List DeleteMarkerEntry)
  | [] => ok ([], [])
  | entry :: entries => do
    let m := entry.manifest
    let key := encodeValue m.key.key encoding
    let lastModified := env.formatRfc3339 m.lastModified
    match m.kind with
    | .object => do
      let etag ← etagOf env m
      let rest ← splitVersions env encoding entries
      ok (⟨key, m.key.versionId, entry.isLatest, lastModified, etag, m.size, m.storageClass⟩ :: rest.1, rest.2)
    | .tombstone => do
      let rest ← splitVersions env encoding entries
      ok (rest.1, ⟨key, m.key.versionId, entry.isLatest, lastModified⟩ :: rest.2)

/-- What the request asks for and the store is asked. -/
structure VersionsQuery where
  pre : Str
  delimiter : Option Str
  maxKeys : Nat
  encoding : Option Str
  keyMarker : Str
  deriving DecidableEq

def VersionsQuery.parse (params : Params) : Except S3Error VersionsQuery := do
  let maxKeys ← parseMaxKeys (Table.get params (str "max-keys"))
  let encoding ← parseEncoding (Table.get params (str "encoding-type"))
  return ⟨params.getString (str "prefix"), params.delimiter, maxKeys, encoding, params.getString (str "key-marker")⟩

def VersionsQuery.request (q : VersionsQuery) (bucket : Str) : ListObjectsRequest :=
  ⟨bucket, q.pre, q.delimiter, afterMarker q.keyMarker, q.maxKeys⟩

def listObjectVersions (env : Env) (bucket query : Str) : Handler Response := do
  let _ ← requireBucket bucket
  let q ← ofExcept (VersionsQuery.parse (parseQuery query))
  let page ← op (.metaOp (.listObjectVersions (q.request bucket)))
  let split ← splitVersions env q.encoding page.entries
  ok (.ofXml (.listVersions
    { name := bucket
      pre := encodeValue q.pre q.encoding
      keyMarker := q.keyMarker
      maxKeys := q.maxKeys
      delimiter := q.delimiter.map (encodeValue · q.encoding)
      isTruncated := page.truncated
      encodingType := q.encoding
      nextKeyMarker := if page.truncated then page.nextCursor.map fun c => encodeValue c.text q.encoding else none
      versions := split.1
      deleteMarkers := split.2 }))

end S3lite
