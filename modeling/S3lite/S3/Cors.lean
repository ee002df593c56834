/-
  S3lite.S3.Cors — the CORS headers of cross-origin requests (src/s3/cors.rs): the preflight,
  and the decoration of the response to the request that follows it.
-/
import S3lite.S3.Common

namespace S3lite

open Handler

/-- `join(", ")` -/
def joinComma (l : List Str) : Str := (str ", ").intercalate l

/-! ## Rules -/

/-- One `*` stands for any text. -/
def originMatches (allowed candidate : Str) : Bool :=
  if allowed = str "*" then true
  else match splitOnce 42 allowed with
    | none => decide (allowed = candidate)
    | some (head, tail) =>
      decide (head <+: candidate) && decide (tail <:+ candidate) && decide (head.length + tail.length ≤ candidate.length)

/-- `eq_ignore_ascii_case` -/
def eqIgnoreAsciiCase (a b : Str) : Bool := decide (toAsciiLower a = toAsciiLower b)

def ruleMatches (rule : CorsRule) (origin method : Str) (requestedHeaders : List Str) : Bool :=
  let originOk := rule.allowedOrigins.any fun allowed => originMatches allowed origin
  let methodOk := rule.allowedMethods.any fun m => eqIgnoreAsciiCase m method
  let headersOk := requestedHeaders.all fun h =>
    rule.allowedHeaders.any fun a => decide (a = str "*") || eqIgnoreAsciiCase a h
  originOk && methodOk && headersOk

def pickRule (rules : List CorsRule) (origin method : Str) (requestedHeaders : List Str) : Option CorsRule :=
  rules.find? fun r => ruleMatches r origin method requestedHeaders

/-- `*` for a rule that allows every origin and does not name this one. -/
def echoOrigin (rule : CorsRule) (origin : Str) : Str :=
  if (rule.allowedOrigins.any fun o => decide (o = str "*")) && !(rule.allowedOrigins.any fun o => decide (o = origin)) then
    str "*"
  else origin

/-! ## Preflight -/

def preflightRequires (what : Str) : S3Error := S3Error.new .invalidRequest (str "preflight requires " ++ what)

/-- The headers the browser announces, in lower case. -/
def requestedHeaders (headers : HeaderMap) : List Str :=
  match headerString headers (str "access-control-request-headers") with
  | some s => ((splitByte 44 s).map fun p => toAsciiLower (trim p)).filter fun s => !s.isEmpty
  | none => []

/-- The answer to a preflight the rule lets through. -/
def preflightResponse (rule : CorsRule) (origin : Str) (requested : List Str) : Response :=
  let resp := (Response.ofStatus 200).setHeader (str "access-control-allow-origin") (echoOrigin rule origin)
  let resp := resp.setHeader (str "access-control-allow-methods") (joinComma rule.allowedMethods)
  let allowHeaders := if requested.isEmpty then joinComma rule.allowedHeaders else joinComma requested
  let resp := if !allowHeaders.isEmpty then resp.setHeader (str "access-control-allow-headers") allowHeaders else resp
  let resp :=
    if !rule.exposeHeaders.isEmpty then
      resp.setHeader (str "access-control-expose-headers") (joinComma rule.exposeHeaders)
    else resp
  let resp := match rule.maxAgeSeconds with
    | some age => resp.setHeader (str "access-control-max-age") (natStr age)
    | none => resp
  resp.setHeader (str "vary") (str "Origin, Access-Control-Request-Method, Access-Control-Request-Headers")

def preflight (bucket : Str) (headers : HeaderMap) : Handler Response := do
  let origin ← orFail (headerString headers (str "origin")) (preflightRequires (str "Origin header"))
  let method ← orFail (headerString headers (str "access-control-request-method"))
    (preflightRequires (str "Access-Control-Request-Method"))
  let requested := requestedHeaders headers
  let cfg ← requireBucket bucket
  let rule ← orFail (pickRule cfg.corsRules origin method requested)
    (S3Error.new .accessForbidden (str "no CORS rule matches the preflight request"))
  ok (preflightResponse rule origin requested)

/-- The preflight reads the bucket and picks a rule. -/
theorem preflight_run {env : Env} {b origin method : Str} {headers : HeaderMap} {w : World}
    (ho : headerString headers (str "origin") = some origin)
    (hr : headerString headers (str "access-control-request-method") = some method) :
    (preflight b headers).run env w =
      (match handleGetBucket w.db b with
      | none => .error (.error (noSuchBucket b))
      | some cfg =>
        match pickRule cfg.corsRules origin method (requestedHeaders headers) with
        | none => .error (.error (S3Error.new .accessForbidden (str "no CORS rule matches the preflight request")))
        | some rule => .ok (preflightResponse rule origin (requestedHeaders headers)), { w with clock := w.clock + 2 }) := by
  have hreq : (requireBucket b).run env w =
      (orFail (handleGetBucket w.db b) (noSuchBucket b)).run env { w with clock := w.clock + 2 } := by
    rw [requireBucket, Handler.run_bind, Handler.run_op]
    rfl
  have hget : ∀ (s : Str) (e : S3Error) (f : Str → Handler Response), (orFail (some s) e >>= f).run env w = (f s).run env w :=
    fun _ _ _ => rfl
  rw [preflight, ho, hr, hget, hget, Handler.run_bind, hreq]
  cases handleGetBucket w.db b with
  | none => rfl
  | some cfg =>
    show Handler.run env (orFail (pickRule cfg.corsRules origin method (requestedHeaders headers)) _ >>= _) _ = (match
      pickRule cfg.corsRules origin method (requestedHeaders headers) with | none => _ | some rule => _, _)
    cases pickRule cfg.corsRules origin method (requestedHeaders headers) <;> rfl

/-! ## Decoration -/

/-- The headers of the decoration. -/
def decorated (rule : CorsRule) (origin : Str) (response : Response) : Response :=
  let resp := response.setHeader (str "access-control-allow-origin") (echoOrigin rule origin)
  let resp :=
    if !rule.exposeHeaders.isEmpty then
      resp.setHeader (str "access-control-expose-headers") (joinComma rule.exposeHeaders)
    else resp
  resp.setHeader (str "vary") (str "Origin")

/-- `apply_response_cors`. No handler and no layer calls it. -/
def applyResponseCors (bucket : Option Str) (requestHeaders : HeaderMap) (response : Response) (requestMethod : Str) :
    Handler Response :=
  match headerString requestHeaders (str "origin"), bucket with
  | some origin, some bucket => do
    let found ← op (.metaOp (.getBucket bucket))
    ok (match found.bind fun cfg => pickRule cfg.corsRules origin requestMethod [] with
      | some rule => decorated rule origin response
      | none => response)
  | _, _ => ok response

end S3lite
