/-
  S3lite.Http.Presigned — validation of presigned URLs (src/http/middleware/presigned.rs).

  SHA-256, HMAC and the date format come from dependencies and are parameters (`Crypto`); so
  is the server's time. The payload is unsigned: `verify` reads the method, the URI and the
  headers only.
-/
import S3lite.S3.Dispatch

namespace S3lite

structure Crypto where
  sha256 : Bytes → Bytes
  hmacSha256 : Bytes → Bytes → Bytes
  parseAmzDate : Str → Option Time

def algorithm : Str := str "AWS4-HMAC-SHA256"

def maxExpires : Int := 604800

def clockSkewSecs : Int := 300

def nanosPerSec : Int := 10 ^ 9

/-! ## The parameters -/

/-- `X-Amz-Signature` is in the query, with a value. -/
def isPresigned (query : Option Str) : Bool :=
  match query with
  | some q => (splitByte 38 q).any fun p => (splitOnce 61 p).any fun kv => eqIgnoreAsciiCase kv.1 (str "X-Amz-Signature")
  | none => false

def parseQueryPairs (query : Str) : Table Str Str :=
  (splitByte 38 query).foldl
    (fun map token => if token.isEmpty then map else map.insert (queryPair token).1 (queryPair token).2) .empty

def malformed (msg : Str) : S3Error := S3Error.new .authorizationHeaderMalformed msg

/-- The first parameter of the name, whatever its case. -/
def getRequired (params : Table Str Str) (name : Str) : Except S3Error Str :=
  match params.rows.find? fun kv => eqIgnoreAsciiCase kv.1 name with
  | some kv => .ok kv.2
  | none => .error (malformed (str "presigned URL is missing " ++ name))

/-- `str::parse` at `i64`. -/
def parseI64 (s : Str) : Option Int :=
  match s with
  | 45 :: 43 :: _ => none
  | 45 :: digits => (parseUnsigned (2 ^ 63 + 1) digits).map fun n => -n
  | _ => (parseUnsigned (2 ^ 63) s).map fun n => n

/-- `s.get(..8).unwrap_or_default()` -/
def datePart (s : Str) : Str := if 8 ≤ s.length ∧ (s.drop 8).head?.any isContinuation = false then s.take 8 else []

/-- The header names `X-Amz-SignedHeaders` lists. -/
def signedHeadersOf (raw : Str) : List Str :=
  ((splitByte 59 (percentDecode false raw)).map fun s => toAsciiLower (trim s)).filter fun s => !s.isEmpty

/-! ## The canonical request -/

/-- Every parameter but the signature, sorted. -/
def canonicalQuery (query : Str) : Str :=
  let pairs := (splitByte 38 query).filterMap fun token =>
    if token.isEmpty || eqIgnoreAsciiCase (queryPair token).1 (str "X-Amz-Signature") then none else some (queryPair token)
  (str "&").intercalate ((pairs.insertionSort fun a b => toLex a ≤ toLex b).map fun kv => kv.1 ++ str "=" ++ kv.2)

def canonicalUri (path : Str) : Str := if path.isEmpty then str "/" else path

/-- Put a header's value in its slot, when it is signed. -/
def slotHeader (byName : Table Str (List Str)) (header : Str × Bytes) : Except S3Error (Table Str (List Str)) :=
  let lower := toAsciiLower header.1
  match byName.get lower with
  | some slot =>
    match toStr header.2 with
    | some v => .ok (byName.insert lower (slot ++ [trim v]))
    | none => .error (invalidRequest (str "non-ascii header " ++ lower))
  | none => .ok byName

def writeHeaders : List (Str × List Str) → Except S3Error Str
  | [] => .ok []
  | (name, values) :: rest =>
    if values.isEmpty then .error (malformed (str "signed header '" ++ name ++ str "' missing"))
    else do
      let out ← writeHeaders rest
      return name ++ str ":" ++ (str ",").intercalate values ++ str "\n" ++ out

def canonicalHeaders (headers : HeaderMap) (signed : List Str) : Except S3Error Str := do
  let byName ← headers.foldlM slotHeader (signed.foldl (fun t name => t.insert name []) Table.empty)
  writeHeaders byName.rows

def canonicalRequest (method : Method) (path query : Str) (headers : Str) (signed : List Str) : Str :=
  (str "\n").intercalate
    [method.name, canonicalUri path, canonicalQuery query, headers, (str ";").intercalate signed, str "UNSIGNED-PAYLOAD"]

/-! ## The check -/

/-- `X-Amz-Credential`, taken apart. -/
structure Credential where
  accessKey : Str
  dateScope : Str
  region : Str
  deriving DecidableEq

def parseCredential (raw : Str) : Except S3Error Credential :=
  match splitByte 47 (percentDecode false raw) with
  | [accessKey, dateScope, region, service, terminator] =>
    if terminator ≠ str "aws4_request" then .error (malformed (str "X-Amz-Credential must end with aws4_request"))
    else if service ≠ str "s3" then .error (malformed (str "X-Amz-Credential service must be s3"))
    else .ok ⟨accessKey, dateScope, region⟩
  | _ => .error (malformed (str "X-Amz-Credential must have 5 slash-delimited components"))

/-- The URL was signed at about this time and has not expired. The sum panics past the last
    `OffsetDateTime`. -/
def checkTime (signedAt now : Time) (expires : Int) : Except Failure Unit :=
  if clockSkewSecs * nanosPerSec < |signedAt - now| then
    .error (.error (S3Error.new .requestTimeTooSkewed (str "request time is outside the allowed clock skew")))
  else if maxTime < signedAt + expires * nanosPerSec then .error .panicked
  else if signedAt + expires * nanosPerSec < now then
    .error (.error (S3Error.new .accessForbidden (str "presigned URL has expired")))
  else .ok ()

/-- `X-Amz-Expires`, in range. -/
def parseExpires (raw : Str) : Except S3Error Int :=
  match parseI64 raw with
  | none => .error (malformed (str "X-Amz-Expires must be a non-negative integer"))
  | some expires =>
    if 1 ≤ expires ∧ expires ≤ maxExpires then .ok expires
    else .error (malformed (str "X-Amz-Expires must be in 1..=" ++ natStr maxExpires.toNat))

/-- The signature of a canonical request. -/
def signature (cr : Crypto) (config : Settings) (cred : Credential) (date canonical : Str) : Str :=
  let scope := cred.dateScope ++ str "/" ++ cred.region ++ str "/s3/aws4_request"
  let stringToSign := (str "\n").intercalate [algorithm, date, scope, hexEncode (cr.sha256 canonical)]
  let kSecret := str "AWS4" ++ config.rootKey.secretAccessKey
  let kDate := cr.hmacSha256 kSecret cred.dateScope
  let kRegion := cr.hmacSha256 kDate cred.region
  let kService := cr.hmacSha256 kRegion (str "s3")
  let kSigning := cr.hmacSha256 kService (str "aws4_request")
  hexEncode (cr.hmacSha256 kSigning stringToSign)

/-- What the request is refused with, if it is. -/
def orRefuse {α : Type} : Except S3Error α → Except Failure α := Except.mapError .error

@[simp] theorem orRefuse_ok {α : Type} (a : α) : orRefuse (.ok a) = .ok a := rfl

@[simp] theorem orRefuse_error {α : Type} (e : S3Error) : orRefuse (.error e : Except S3Error α) = .error (.error e) := rfl

def verify (cr : Crypto) (now : Time) (method : Method) (path : Str) (uriQuery : Option Str) (headers : HeaderMap)
    (config : Settings) : Except Failure Unit :=
  match uriQuery with
  | none => .error (.error (malformed (str "presigned URL has no query string")))
  | some query => do
    let params := parseQueryPairs query
    let alg ← orRefuse (getRequired params (str "X-Amz-Algorithm"))
    if alg ≠ algorithm then .error (.error (malformed (str "unsupported X-Amz-Algorithm '" ++ alg ++ str "'")))
    let cred ← orRefuse (parseCredential (← orRefuse (getRequired params (str "X-Amz-Credential"))))
    if cred.accessKey ≠ config.rootKey.accessKeyId then
      .error (.error (S3Error.new .invalidAccessKeyId (str "unknown access key id")))
    let date := percentDecode false (← orRefuse (getRequired params (str "X-Amz-Date")))
    let signedAt ← (match cr.parseAmzDate date with
      | some t => .ok t
      | none => .error (.error (malformed (str "X-Amz-Date is not ISO-8601 basic (yyyyMMddTHHmmssZ)"))))
    if datePart date ≠ cred.dateScope then
      .error (.error (malformed (str "X-Amz-Credential date does not match X-Amz-Date")))
    let expires ← orRefuse (parseExpires (← orRefuse (getRequired params (str "X-Amz-Expires"))))
    checkTime signedAt now expires
    let signed := signedHeadersOf (← orRefuse (getRequired params (str "X-Amz-SignedHeaders")))
    if signed.isEmpty then .error (.error (malformed (str "X-Amz-SignedHeaders is empty")))
    let provided ← orRefuse (getRequired params (str "X-Amz-Signature"))
    let canonical ← orRefuse (canonicalHeaders headers signed)
    if signature cr config cred date (canonicalRequest method path query canonical signed) ≠ provided then
      .error (.error (S3Error.new .signatureDoesNotMatch (str "presigned signature did not match")))
    return ()

end S3lite
