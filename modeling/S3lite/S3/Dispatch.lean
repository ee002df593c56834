/-
  S3lite.S3.Dispatch — the single entry point of the S3 requests (src/s3/dispatch.rs):
  addressing, the limit on the body, and the route by method, addressing and query.

  `routed` is what dispatch decides before it touches the stores: the route, or the error it
  answers. A route is one of the client requests, or a CORS preflight.
-/
import S3lite.Server.Requests
import S3lite.S3.Addressing
import S3lite.S3.Cors

namespace S3lite

open Handler

/-! ## Requests -/

inductive Method where
  | get
  | head
  | put
  | post
  | delete
  | options
  | other (name : Str)
  deriving DecidableEq

/-- `Method::as_str` -/
def Method.name : Method → Str
  | get => str "GET"
  | head => str "HEAD"
  | put => str "PUT"
  | post => str "POST"
  | delete => str "DELETE"
  | options => str "OPTIONS"
  | other name => name

/-- `path` and `query` as on the wire. -/
structure HttpRequest where
  method : Method
  path : Str
  query : Option Str
  headers : HeaderMap
  body : Bytes
  deriving DecidableEq

/-- `uri.query().unwrap_or("")` -/
def HttpRequest.queryStr (req : HttpRequest) : Str := req.query.getD []

def HttpRequest.host (req : HttpRequest) : Option Str := headerString req.headers (str "host")

/-! ## Query -/

/-- A query parameter's name and raw value. -/
def queryPair (pair : Str) : Str × Str := (splitOnce 61 pair).getD (pair, [])

def queryValue (query key : Str) : Option Str :=
  if query.isEmpty then none
  else (splitByte 38 query).findSome? fun pair =>
    if (queryPair pair).1 = key then some (percentDecode false (queryPair pair).2) else none

def hasQueryFlag (query flag : Str) : Bool :=
  if query.isEmpty then false else (splitByte 38 query).any fun p => decide ((queryPair p).1 = flag)

/-- A parameter the query does not name has no value. -/
theorem queryValue_of_noFlag {query name : Str} (h : hasQueryFlag query name = false) : queryValue query name = none := by
  unfold hasQueryFlag at h
  unfold queryValue
  split at h
  · rename_i he
    rw [if_pos he]
  · rename_i he
    rw [if_neg he, List.findSome?_eq_none_iff]
    intro pair hp
    exact if_neg (by simpa using List.any_eq_false.mp h pair hp)

/-! ## Routes -/

inductive Route where
  | preflight (bucket : Str) (headers : HeaderMap)
  | request (r : Request)

def parseCopySourceHeader (headers : HeaderMap) : Except S3Error CopySource :=
  match headerString headers (str "x-amz-copy-source") with
  | some raw => parseCopySource raw
  | none => .error (invalid (str "missing x-amz-copy-source header"))

def parsePartNumber (s : Str) : Except S3Error Nat :=
  match parseUnsigned (2 ^ 32) s with
  | some n => .ok n
  | none => .error (invalid (str "partNumber must be a number"))

def notImplemented : S3Error := (S3Error.new .notImplemented (str "operation not implemented")).withResource []

def isCopy (headers : HeaderMap) : Bool := (headers.get (str "x-amz-copy-source")).isSome

/-- `PUT /bucket`: the subresources, before the catch-all. -/
def routePutBucket (b query : Str) (headers : HeaderMap) (body : Bytes) : Request :=
  if hasQueryFlag query (str "versioning") then .putBucketVersioning b body
  else if hasQueryFlag query (str "cors") then .putBucketCors b body
  else if hasQueryFlag query (str "object-lock") then .putBucketObjectLock b body
  else if hasQueryFlag query (str "lifecycle") then .putBucketLifecycle b body
  else .createBucket b headers

/-- `GET /bucket` -/
def routeGetBucket (b query : Str) : Request :=
  if hasQueryFlag query (str "versioning") then .getBucketVersioning b
  else if hasQueryFlag query (str "location") then .getBucketLocation b
  else if hasQueryFlag query (str "versions") then .listObjectVersions b query
  else if hasQueryFlag query (str "cors") then .getBucketCors b
  else if hasQueryFlag query (str "object-lock") then .getBucketObjectLock b
  else if hasQueryFlag query (str "lifecycle") then .getBucketLifecycle b
  else .listObjects b query

/-- `DELETE /bucket` -/
def routeDeleteBucket (b query : Str) : Request :=
  if hasQueryFlag query (str "cors") then .deleteBucketCors b
  else if hasQueryFlag query (str "lifecycle") then .deleteBucketLifecycle b
  else .deleteBucket b

/-- `POST /bucket/key` -/
def routePostObject (b k query : Str) (headers : HeaderMap) (body : Bytes) : Except S3Error Request :=
  if hasQueryFlag query (str "uploads") then .ok (.createMultipartUpload b k headers)
  else match queryValue query (str "uploadId") with
    | some uploadId => .ok (.completeMultipartUpload b k uploadId body)
    | none => .error notImplemented

/-- `PUT /bucket/key` -/
def routePutObject (b k query : Str) (headers : HeaderMap) (body : Bytes) : Except S3Error Request :=
  match queryValue query (str "uploadId"), queryValue query (str "partNumber") with
  | some uploadId, some partNumber =>
    if isCopy headers then do
      let pn ← parsePartNumber partNumber
      let source ← parseCopySourceHeader headers
      return .uploadPartCopy b k uploadId pn source headers
    else do
      let pn ← parsePartNumber partNumber
      return .uploadPart b k uploadId pn headers body
  | _, _ =>
    if hasQueryFlag query (str "tagging") then .ok (.putObjectTagging b k (queryValue query (str "versionId")) body)
    else if hasQueryFlag query (str "retention") then .ok (.putObjectRetention b k (queryValue query (str "versionId")) body)
    else if hasQueryFlag query (str "legal-hold") then .ok (.putObjectLegalHold b k (queryValue query (str "versionId")) body)
    else if isCopy headers then do
      let source ← parseCopySourceHeader headers
      return .copyObject b k source headers
    else .ok (.putObject b k headers body)

/-- `GET /bucket/key` -/
def routeGetObject (b k query : Str) (headers : HeaderMap) : Request :=
  match queryValue query (str "uploadId") with
  | some uploadId => .listParts b k uploadId
  | none =>
    if hasQueryFlag query (str "tagging") then .getObjectTagging b k (queryValue query (str "versionId"))
    else if hasQueryFlag query (str "retention") then .getObjectRetention b k (queryValue query (str "versionId"))
    else if hasQueryFlag query (str "legal-hold") then .getObjectLegalHold b k (queryValue query (str "versionId"))
    else .getObject b k (queryValue query (str "versionId")) headers

/-- `DELETE /bucket/key` -/
def routeDeleteObject (b k query : Str) : Request :=
  match queryValue query (str "uploadId") with
  | some uploadId => .abortMultipartUpload b k uploadId
  | none =>
    if hasQueryFlag query (str "tagging") then .deleteObjectTagging b k (queryValue query (str "versionId"))
    else .deleteObject b k (queryValue query (str "versionId"))

/-- The arms of `handle`, grouped by method and addressing; within a group in their order. -/
def route (method : Method) (addressing : Addressing) (query : Str) (headers : HeaderMap) (body : Bytes) :
    Except S3Error Route :=
  match method, addressing.bucket, addressing.key with
  | .get, none, _ => .ok (.request .listBuckets)
  | .options, some b, _ => .ok (.preflight b headers)
  | .put, some b, none => .ok (.request (routePutBucket b query headers body))
  | .get, some b, none => .ok (.request (routeGetBucket b query))
  | .delete, some b, none => .ok (.request (routeDeleteBucket b query))
  | .head, some b, none => .ok (.request (.headBucket b))
  | .post, some b, some k => (routePostObject b k query headers body).map .request
  | .put, some b, some k => (routePutObject b k query headers body).map .request
  | .get, some b, some k => .ok (.request (routeGetObject b k query headers))
  | .head, some b, some k => .ok (.request (.headObject b k (queryValue query (str "versionId")) headers))
  | .delete, some b, some k => .ok (.request (routeDeleteObject b k query))
  | _, _, _ => .error notImplemented

/-- The answer to a HEAD of an object has no body. -/
def dropBody (resp : Response) : Response := { resp with body := .empty }

/-- The handler of a route. -/
def Route.handler (env : Env) : Route → Handler Response
  | .preflight bucket headers => S3lite.preflight bucket headers
  | .request (.headObject bucket key versionId headers) => do
    let resp ← Request.handler env (.headObject bucket key versionId headers)
    ok (dropBody resp)
  | .request r => r.handler env

/-! ## Dispatch -/

/-- An error without a resource names the path. -/
def decorate (e : S3Error) (uriPath : Str) : S3Error := if e.resource.isNone then e.withResource uriPath else e

def bodyTooLarge : S3Error := S3Error.new .invalidRequest (str "request body too large")

/-- Addressing, then the body, then the route. -/
def routed (config : Settings) (req : HttpRequest) : Except S3Error Route := do
  let addressing ← extract req.host req.path config
  if config.maxSignedBodyBytes < req.body.length then .error bodyTooLarge
  else route req.method addressing req.queryStr req.headers req.body

/-- What dispatch answers to an error. -/
theorem decorate_code (e : S3Error) (uriPath : Str) : (decorate e uriPath).code = e.code := by
  unfold decorate
  split <;> rfl

theorem routed_of_error {config : Settings} {req : HttpRequest} {e : S3Error}
    (h : extract req.host req.path config = .error e) : routed config req = .error e := by
  rw [routed, h]
  rfl

theorem routed_of_extract {config : Settings} {req : HttpRequest} {addressing : Addressing}
    (h : extract req.host req.path config = .ok addressing) :
    routed config req =
      if config.maxSignedBodyBytes < req.body.length then .error bodyTooLarge
      else route req.method addressing req.queryStr req.headers req.body := by
  rw [routed, h]
  rfl

/-- What the client gets: a response, or a dropped connection. -/
abbrev Answer := Option Response

def answerOf (uriPath : Str) : Except Failure Response → Answer
  | .ok r => some r
  | .error (.error e) => some (.ofError (decorate e uriPath))
  | .error .panicked => none

/-- A handler answering the client. -/
def answered (uriPath : Str) (x : Handler Response) : Prog Op Op.Res Answer :=
  Prog.bind x fun r => .ret (answerOf uriPath r)

/-- What is decided about a request, carried out. -/
def serve (env : Env) (uriPath : Str) : Except S3Error Route → Prog Op Op.Res Answer
  | .ok r => answered uriPath (r.handler env)
  | .error e => .ret (some (.ofError (decorate e uriPath)))

def dispatch (env : Env) (config : Settings) (req : HttpRequest) : Prog Op Op.Res Answer :=
  serve env req.path (routed config req)

theorem answered_run (env : Env) (uriPath : Str) (x : Handler Response) (w : World) :
    (answered uriPath x).run (exec env) w = (answerOf uriPath (x.run env w).1, (x.run env w).2) :=
  Prog.run_bind (exec env) x _ w

/-! ## What a route takes of the message -/

/-- The request with its headers and its body replaced. -/
def Request.mapMessage (f : HeaderMap → HeaderMap) (g : Bytes → Bytes) : Request → Request
  | .createBucket bucket headers => .createBucket bucket (f headers)
  | .putBucketVersioning bucket body => .putBucketVersioning bucket (g body)
  | .putBucketLifecycle bucket body => .putBucketLifecycle bucket (g body)
  | .putBucketCors bucket body => .putBucketCors bucket (g body)
  | .putBucketObjectLock bucket body => .putBucketObjectLock bucket (g body)
  | .createMultipartUpload bucket key headers => .createMultipartUpload bucket key (f headers)
  | .uploadPart bucket key uploadId partNumber headers body => .uploadPart bucket key uploadId partNumber (f headers) (g body)
  | .uploadPartCopy bucket key uploadId partNumber source headers =>
    .uploadPartCopy bucket key uploadId partNumber source (f headers)
  | .completeMultipartUpload bucket key uploadId body => .completeMultipartUpload bucket key uploadId (g body)
  | .putObject bucket key headers body => .putObject bucket key (f headers) (g body)
  | .copyObject bucket key source headers => .copyObject bucket key source (f headers)
  | .getObject bucket key versionId headers => .getObject bucket key versionId (f headers)
  | .headObject bucket key versionId headers => .headObject bucket key versionId (f headers)
  | .putObjectTagging bucket key versionId body => .putObjectTagging bucket key versionId (g body)
  | .putObjectRetention bucket key versionId body => .putObjectRetention bucket key versionId (g body)
  | .putObjectLegalHold bucket key versionId body => .putObjectLegalHold bucket key versionId (g body)
  | r => r

def Route.mapMessage (f : HeaderMap → HeaderMap) (g : Bytes → Bytes) : Route → Route
  | .preflight bucket headers => .preflight bucket (f headers)
  | .request r => .request (r.mapMessage f g)

section
variable {f : HeaderMap → HeaderMap} {g : Bytes → Bytes} {headers headers' : HeaderMap} {body body' : Bytes}

theorem routePutBucket_congr (hf : f headers = f headers') (hg : g body = g body') (b query : Str) :
    (routePutBucket b query headers body).mapMessage f g = (routePutBucket b query headers' body').mapMessage f g := by
  unfold routePutBucket
  repeat' split
  all_goals simp only [Request.mapMessage, hf, hg]

theorem routePostObject_congr (hf : f headers = f headers') (hg : g body = g body') (b k query : Str) :
    (routePostObject b k query headers body).map (·.mapMessage f g) =
      (routePostObject b k query headers' body').map (·.mapMessage f g) := by
  unfold routePostObject
  repeat' split
  all_goals simp only [Except.map, Request.mapMessage, hf, hg]

/-- The copy source the headers name, when they name one. -/
def copySourceOf (headers : HeaderMap) : Option (Except S3Error CopySource) :=
  if isCopy headers then some (parseCopySourceHeader headers) else none

/-- A PUT of an object with the query asks for the copy source. -/
def choosesCopy (query : Str) : Bool :=
  match queryValue query (str "uploadId"), queryValue query (str "partNumber") with
  | some _, some partNumber => (parseUnsigned (2 ^ 32) partNumber).isSome
  | _, _ => !(hasQueryFlag query (str "tagging") || hasQueryFlag query (str "retention") || hasQueryFlag query (str "legal-hold"))

/-- What is left to the copy source. -/
def orCopy (plain : Request) (copy : CopySource → Request) : Option (Except S3Error CopySource) → Except S3Error Request
  | none => .ok plain
  | some source => source.map copy

theorem orCopy_injective {plain : Request} {copy : CopySource → Request} (hne : ∀ s, copy s ≠ plain)
    (hinj : ∀ s t, copy s = copy t → s = t) {r r' : Option (Except S3Error CopySource)}
    (h : orCopy plain copy r = orCopy plain copy r') : r = r' := by
  rcases r with _ | (e | s) <;> rcases r' with _ | (e' | s') <;> simp only [orCopy, Except.map, Except.ok.injEq,
    Except.error.injEq, reduceCtorEq] at h
  · rfl
  · exact absurd h.symm (hne s')
  · rw [h]
  · exact absurd h (hne s)
  · rw [hinj s s' h]

theorem orCopy_map (plain : Request) (copy : CopySource → Request) (r : Option (Except S3Error CopySource)) :
    (orCopy plain copy r).map (·.mapMessage f g) = orCopy (plain.mapMessage f g) (fun s => (copy s).mapMessage f g) r := by
  rcases r with _ | (e | s) <;> rfl

theorem routePutObject_eq (b k query : Str) : routePutObject b k query headers body =
    match queryValue query (str "uploadId"), queryValue query (str "partNumber") with
    | some uploadId, some partNumber => do
      let pn ← parsePartNumber partNumber
      orCopy (.uploadPart b k uploadId pn headers body) (.uploadPartCopy b k uploadId pn · headers) (copySourceOf headers)
    | _, _ =>
      if hasQueryFlag query (str "tagging") then .ok (.putObjectTagging b k (queryValue query (str "versionId")) body)
      else if hasQueryFlag query (str "retention") then .ok (.putObjectRetention b k (queryValue query (str "versionId")) body)
      else if hasQueryFlag query (str "legal-hold") then .ok (.putObjectLegalHold b k (queryValue query (str "versionId")) body)
      else orCopy (.putObject b k headers body) (.copyObject b k · headers) (copySourceOf headers) := by
  unfold routePutObject copySourceOf
  by_cases hc : isCopy headers = true
  · simp only [hc, if_true]
    rfl
  · simp only [hc]
    rfl

/-- Two messages under one query are routed alike exactly when the copy source, where it is
    asked for, is the same. -/
theorem routePutObject_congr (hf : f headers = f headers') (hg : g body = g body') (b k query : Str) :
    (routePutObject b k query headers body).map (·.mapMessage f g) =
        (routePutObject b k query headers' body').map (·.mapMessage f g) ↔
      (choosesCopy query = true → copySourceOf headers = copySourceOf headers') := by
  rw [routePutObject_eq, routePutObject_eq]
  unfold choosesCopy
  split
  · rename_i uploadId partNumber _ _
    unfold parsePartNumber
    cases parseUnsigned (2 ^ 32) partNumber with
    | none => simp [Bind.bind, Except.bind]
    | some pn =>
      simp only [Bind.bind, Except.bind, orCopy_map]
      simp only [Request.mapMessage, hf, hg, Option.isSome_some, forall_const]
      exact ⟨orCopy_injective (by simp) (by simp), fun h => by rw [h]⟩
  · by_cases ht : hasQueryFlag query (str "tagging") = true
    · simp [ht, Except.map, Request.mapMessage, hg]
    by_cases hr : hasQueryFlag query (str "retention") = true
    · simp [ht, hr, Except.map, Request.mapMessage, hg]
    by_cases hl : hasQueryFlag query (str "legal-hold") = true
    · simp [ht, hr, hl, Except.map, Request.mapMessage, hg]
    simp only [ht, hr, hl, Bool.false_eq_true, if_false, orCopy_map]
    simp only [Request.mapMessage, hf, hg, Bool.or_self, Bool.not_false, forall_const]
    exact ⟨orCopy_injective (by simp) (by simp), fun h => by rw [h]⟩

theorem routeGetObject_congr (hf : f headers = f headers') (b k query : Str) :
    (routeGetObject b k query headers).mapMessage f g = (routeGetObject b k query headers').mapMessage f g := by
  unfold routeGetObject
  repeat' split
  all_goals simp only [Request.mapMessage, hf]

/-- The request is routed by the copy source its headers name. -/
def asksCopySource (method : Method) (addressing : Addressing) (query : Str) : Bool :=
  decide (method = .put) && addressing.bucket.isSome && addressing.key.isSome && choosesCopy query

theorem map_request_iff {r r' : Except S3Error Request} :
    (r.map Route.request).map (·.mapMessage f g) = (r'.map Route.request).map (·.mapMessage f g) ↔
      r.map (·.mapMessage f g) = r'.map (·.mapMessage f g) := by
  cases r <;> cases r' <;> simp [Except.map, Route.mapMessage]

theorem route_congr (hf : f headers = f headers') (hg : g body = g body') (method : Method) (addressing : Addressing)
    (query : Str) :
    (route method addressing query headers body).map (·.mapMessage f g) =
        (route method addressing query headers' body').map (·.mapMessage f g) ↔
      (asksCopySource method addressing query = true → copySourceOf headers = copySourceOf headers') := by
  obtain ⟨bucket, key⟩ := addressing
  by_cases hput : method = .put ∧ bucket.isSome ∧ key.isSome
  · obtain ⟨rfl, hb, hk⟩ := hput
    obtain ⟨b, rfl⟩ := Option.isSome_iff_exists.mp hb
    obtain ⟨k, rfl⟩ := Option.isSome_iff_exists.mp hk
    simp only [route, asksCopySource, map_request_iff, routePutObject_congr hf hg, Option.isSome_some, decide_true, Bool.true_and]
  · have hno : asksCopySource method ⟨bucket, key⟩ query = false := by
      simp only [asksCopySource, Bool.and_eq_false_iff, decide_eq_false_iff_not]
      by_contra hc
      simp only [not_or, not_not, Bool.not_eq_false] at hc
      exact hput ⟨hc.1.1.1, hc.1.1.2, hc.1.2⟩
    rw [hno]
    refine iff_of_true ?_ nofun
    let done (r : Request) : Except S3Error Route := .ok (.request r)
    let asked (b : Str) (h : HeaderMap) : Except S3Error Route := .ok (.preflight b h)
    cases method <;> cases bucket <;> cases key <;> try rfl
    case get.some.some b k => exact congrArg done (routeGetObject_congr hf b k query)
    case head.some.some b k => exact congrArg (fun h => done (.headObject b k (queryValue query (str "versionId")) h)) hf
    case put.some.none b => exact congrArg done (routePutBucket_congr hf hg b query)
    case put.some.some => exact absurd ⟨rfl, rfl, rfl⟩ hput
    case post.some.some b k => exact map_request_iff.mpr (routePostObject_congr hf hg b k query)
    case options.some.none b => exact congrArg (asked b) hf
    case options.some.some b k => exact congrArg (asked b) hf

end

/-! ## Errors -/

theorem parseCopySource_code {raw : Str} {e : S3Error} (h : parseCopySource raw = .error e) : e.code = .invalidArgument := by
  unfold parseCopySource at h
  dsimp only at h
  repeat' split at h
  all_goals first
    | cases h; rfl
    | cases h

theorem parseCopySourceHeader_code {headers : HeaderMap} {e : S3Error} (h : parseCopySourceHeader headers = .error e) :
    e.code = .invalidArgument := by
  unfold parseCopySourceHeader at h
  split at h
  · exact parseCopySource_code h
  · cases h
    rfl

theorem orCopy_code {plain : Request} {copy : CopySource → Request} {headers : HeaderMap} {e : S3Error}
    (h : orCopy plain copy (copySourceOf headers) = .error e) : e.code = .invalidArgument := by
  unfold copySourceOf at h
  split at h
  · cases hs : parseCopySourceHeader headers with
    | error e' =>
      rw [hs] at h
      cases h
      exact parseCopySourceHeader_code hs
    | ok s =>
      rw [hs] at h
      cases h
  · cases h

theorem routePutObject_code {b k query : Str} {headers : HeaderMap} {body : Bytes} {e : S3Error}
    (h : routePutObject b k query headers body = .error e) : e.code = .invalidArgument := by
  rw [routePutObject_eq] at h
  split at h
  · rename_i uploadId partNumber _ _
    unfold parsePartNumber at h
    cases hp : parseUnsigned (2 ^ 32) partNumber with
    | none =>
      rw [hp] at h
      cases h
      rfl
    | some pn =>
      rw [hp] at h
      exact orCopy_code h
  · repeat' split at h
    all_goals first
      | cases h
      | exact orCopy_code h

/-- A request that is not routed names an operation that does not exist, or an argument that
    does not parse. -/
theorem route_code {method : Method} {addressing : Addressing} {query : Str} {headers : HeaderMap} {body : Bytes} {e : S3Error}
    (h : route method addressing query headers body = .error e) : e = notImplemented ∨ e.code = .invalidArgument := by
  have hpost : ∀ b k, routePostObject b k query headers body = .error e → e = notImplemented := by
    intro b k h
    unfold routePostObject at h
    repeat' split at h
    all_goals cases h
    rfl
  have hmap : ∀ r : Except S3Error Request, r.map Route.request = .error e → r = .error e := by
    intro r h
    cases r with
    | error e' =>
      cases h
      rfl
    | ok r => cases h
  unfold route at h
  split at h
  all_goals first
    | exact Or.inr (routePutObject_code (hmap _ h))
    | exact Or.inl (hpost _ _ (hmap _ h))
    | cases h
  exact Or.inl rfl

end S3lite
