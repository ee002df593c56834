/-
  S3lite.Server.Handler — requests, responses and errors (src/http/error.rs), and handlers
  as programs over the world's operations.

  A handler returns a value, or fails: with the error it answers, or by a panic, which
  drops the connection and answers nothing.
-/
import S3lite.Server.World
import S3lite.Base.Prog
import S3lite.Base.Text

namespace S3lite

/-! ## Errors -/

inductive S3ErrorCode where
  | accessDenied
  | signatureDoesNotMatch
  | invalidAccessKeyId
  | requestTimeTooSkewed
  | authorizationHeaderMalformed
  | missingSecurityHeader
  | invalidRequest
  | notImplemented
  | internalError
  | noSuchBucket
  | bucketAlreadyExists
  | bucketAlreadyOwnedByYou
  | bucketNotEmpty
  | noSuchKey
  | noSuchUpload
  | invalidArgument
  | badDigest
  | preconditionFailed
  | notModified
  | invalidBucketName
  | noSuchCorsConfiguration
  | noSuchLifecycleConfiguration
  | accessForbidden
  deriving DecidableEq, Repr

def S3ErrorCode.status : S3ErrorCode → Nat
  | accessDenied | signatureDoesNotMatch | invalidAccessKeyId | requestTimeTooSkewed | authorizationHeaderMalformed
  | missingSecurityHeader => 403
  | invalidRequest | invalidArgument | badDigest | invalidBucketName => 400
  | notImplemented => 501
  | internalError => 500
  | noSuchBucket | noSuchKey | noSuchUpload => 404
  | bucketAlreadyExists | bucketAlreadyOwnedByYou | bucketNotEmpty => 409
  | preconditionFailed => 412
  | notModified => 304
  | noSuchCorsConfiguration => 404
  | noSuchLifecycleConfiguration => 404
  | accessForbidden => 403

/-- A message: a text, or `meta: ` and the error of the metadata store. -/
inductive Message where
  | text (s : Str)
  | metaErr (e : MetaError)
  deriving DecidableEq

structure S3Error where
  code : S3ErrorCode
  message : Message
  resource : Option Str
  deriving DecidableEq

def S3Error.new (code : S3ErrorCode) (message : Str) : S3Error := ⟨code, .text message, none⟩

def S3Error.withResource (e : S3Error) (resource : Str) : S3Error := { e with resource := some resource }

/-- `format!("/{bucket}")` -/
def bucketPath (bucket : Str) : Str := str "/" ++ bucket

/-- `format!("/{bucket}/{key}")` -/
def objectPath (bucket key : Str) : Str := str "/" ++ bucket ++ str "/" ++ key

def natStr (n : Nat) : Str := str (toString n)

def mapMetaErr (e : MetaError) : S3Error := ⟨.internalError, .metaErr e, none⟩

/-! ## Headers -/

/-- A request's headers, in order; names in lower case. -/
abbrev HeaderMap := List (Str × Bytes)

def HeaderMap.get (headers : HeaderMap) (name : Str) : Option Bytes := (headers.find? fun h => h.1 = name).map (·.2)

/-- `HeaderValue::to_str`: visible ASCII only. -/
def toStr (v : Bytes) : Option Str := if v.all fun b => (32 ≤ b && b < 127) || b == 9 then some v else none

/-- `header_string`: the header's value, when it is visible ASCII. -/
def headerString (headers : HeaderMap) (name : Str) : Option Str := (headers.get name).bind toStr

/-- `HeaderName::try_from` accepts the token characters, and lowers them. -/
def isHeaderName (name : Str) : Bool :=
  !name.isEmpty && name.all fun b =>
    (48 ≤ b && b ≤ 57) || (65 ≤ b && b ≤ 90) || (97 ≤ b && b ≤ 122) || (str "!#$%&'*+-.^_|~").contains b || b == 96

/-- `HeaderValue::from_str` refuses control characters. -/
def isHeaderValue (value : Str) : Bool := value.all fun b => (32 ≤ b && b != 127) || b == 9

/-- `set_header`: replaces the header, when its name and value are well formed. -/
def setHeader (headers : HeaderMap) (name value : Str) : HeaderMap :=
  if isHeaderName name && isHeaderValue value then
    headers.filter (fun h => h.1 ≠ toAsciiLower name) ++ [(toAsciiLower name, value)]
  else headers

/-! ## Responses -/

structure ObjectVersion where
  key : Str
  versionId : Str
  isLatest : Bool
  lastModified : Str
  etag : Str
  size : Nat
  storageClass : Str
  deriving DecidableEq

structure DeleteMarkerEntry where
  key : Str
  versionId : Str
  isLatest : Bool
  lastModified : Str
  deriving DecidableEq

structure ListVersionsResult where
  name : Str
  pre : Str
  keyMarker : Str
  maxKeys : Nat
  delimiter : Option Str
  isTruncated : Bool
  encodingType : Option Str
  nextKeyMarker : Option Str
  versions : List ObjectVersion
  deleteMarkers : List DeleteMarkerEntry
  deriving DecidableEq

structure ListPartsPart where
  partNumber : Nat
  etag : Str
  size : Nat
  lastModified : Str
  deriving DecidableEq

structure ObjectContent where
  key : Str
  lastModified : Str
  etag : Str
  size : Nat
  storageClass : Str
  deriving DecidableEq

structure ListBucketResultV2 where
  name : Str
  pre : Str
  keyCount : Nat
  maxKeys : Nat
  delimiter : Option Str
  isTruncated : Bool
  encodingType : Option Str
  continuationToken : Option Str
  nextContinuationToken : Option Str
  startAfter : Option Str
  contents : List ObjectContent
  commonPrefixes : List Str
  deriving DecidableEq

structure ListBucketResultV1 where
  name : Str
  pre : Str
  marker : Str
  maxKeys : Nat
  delimiter : Option Str
  isTruncated : Bool
  encodingType : Option Str
  nextMarker : Option Str
  contents : List ObjectContent
  commonPrefixes : List Str
  deriving DecidableEq

/-- The documents the handlers answer with. -/
inductive XmlDoc where
  | listAllMyBuckets (buckets : List (Str × Str))
  | locationConstraint (region : Str)
  | versioning (status : Option Str)
  | lifecycle (rules : List LifecycleRuleXml)
  | cors (rules : List CorsRule)
  | objectLock (cfg : ObjectLockConfigurationXml)
  | retention (mode retainUntilDate : Str)
  | legalHold (status : Str)
  | tagging (tags : List (Str × Str))
  | copyObjectResult (etag lastModified : Str)
  | copyPartResult (etag lastModified : Str)
  | initiateMultipartUpload (bucket key uploadId : Str)
  | completeMultipartUpload (location bucket key etag : Str)
  | listParts (bucket key uploadId : Str) (maxParts : Nat) (isTruncated : Bool) (parts : List ListPartsPart)
  | listVersions (r : ListVersionsResult)
  | listBucketV2 (r : ListBucketResultV2)
  | listBucketV1 (r : ListBucketResultV1)
  deriving DecidableEq

inductive Body where
  | empty
  | bytes (b : Bytes)
  | xml (doc : XmlDoc)
  | error (e : S3Error)
  deriving DecidableEq

structure Response where
  status : Nat
  headers : HeaderMap
  body : Body
  deriving DecidableEq

/-- A bare status. -/
def Response.ofStatus (status : Nat) : Response := ⟨status, [], .empty⟩

def Response.setHeader (r : Response) (name value : Str) : Response :=
  { r with headers := S3lite.setHeader r.headers name value }

/-- `XmlBody(doc).into_response()` -/
def Response.ofXml (doc : XmlDoc) : Response := ⟨200, [(str "content-type", str "application/xml")], .xml doc⟩

/-- `S3Error::into_response` -/
def Response.ofError (e : S3Error) : Response := ⟨e.code.status, [(str "content-type", str "application/xml")], .error e⟩

/-! ## Handlers -/

inductive Failure where
  | error (e : S3Error)
  | panicked
  deriving DecidableEq

theorem bind_eq_ok {ε α β : Type} {x : Except ε α} {f : α → Except ε β} {b : β} :
    x >>= f = .ok b ↔ ∃ a, x = .ok a ∧ f a = .ok b := by
  cases x with
  | error e => simp [Bind.bind, Except.bind]
  | ok a => simp [Bind.bind, Except.bind]

def Handler (α : Type) : Type := Prog Op Op.Res (Except Failure α)

namespace Handler

variable {α β : Type}

def ok (a : α) : Handler α := Prog.ret (.ok a)

def fail (e : S3Error) : Handler α := Prog.ret (.error (.error e))

def panicked : Handler α := Prog.ret (.error .panicked)

def bind (x : Handler α) (f : α → Handler β) : Handler β :=
  Prog.bind x fun r => match r with
    | .ok a => f a
    | .error e => Prog.ret (.error e)

instance instMonadHandler : Monad Handler where
  pure := ok
  bind := bind

def op (o : Op) : Handler o.Res := Prog.call o fun r => Prog.ret (.ok r)

def ofExcept : Except S3Error α → Handler α
  | .ok a => ok a
  | .error e => fail e

/-- `.ok_or_else(|| e)?` -/
def orFail (o : Option α) (e : S3Error) : Handler α := ofExcept (o.elim (.error e) .ok)

theorem orFail_some (a : α) (e : S3Error) : orFail (some a) e = ok a := rfl

/-- An early return of the error unless the condition holds. -/
def ensure (p : Prop) [Decidable p] (e : S3Error) : Handler Unit := if p then ok () else fail e

/-- `.map_err(f)?` on a reply of the metadata store. -/
def mapErr (f : MetaError → S3Error) : Except MetaError α → Handler α
  | .ok a => ok a
  | .error e => fail (f e)

/-- A handler run alone. -/
def run (env : Env) (x : Handler α) (w : World) : Except Failure α × World := Prog.run (exec env) x w

section
variable (env : Env) (w : World)

theorem run_bind (x : Handler α) (f : α → Handler β) :
    run env (x >>= f) w = match run env x w with
      | (.ok a, w') => run env (f a) w'
      | (.error e, w') => (.error e, w') := by
  refine (Prog.run_bind (exec env) x _ w).trans ?_
  show Prog.run _ (match (run env x w).1 with | .ok a => f a | .error e => _) (run env x w).2 = _
  rcases run env x w with ⟨_ | _, w'⟩ <;> rfl

@[simp] theorem run_ok (a : α) : run env (ok a) w = (.ok a, w) := rfl

@[simp] theorem run_pure (a : α) : run env (pure a : Handler α) w = (.ok a, w) := rfl

@[simp] theorem run_fail (e : S3Error) : run env (fail e : Handler α) w = (.error (.error e), w) := rfl

@[simp] theorem run_panicked : run env (panicked : Handler α) w = (.error .panicked, w) := rfl

@[simp] theorem run_op (o : Op) : run env (op o) w = (.ok (exec env o w).1, (exec env o w).2) := rfl

theorem run_op_bind {w w' : World} {o : Op} {r : o.Res} {f : o.Res → Handler β} (h : exec env o w = (r, w')) :
    run env (op o >>= f) w = run env (f r) w' := by
  rw [run_bind, run_op, h]

@[simp] theorem run_ofExcept (r : Except S3Error α) : run env (ofExcept r) w = (r.mapError .error, w) := by
  cases r <;> rfl

end

end Handler

end S3lite
