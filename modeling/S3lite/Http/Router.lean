/-
  S3lite.Http.Router — the app in front of the dispatcher (src/http/router.rs and
  src/http/middleware/auth.rs): the public routes, then signature verification.

  Verification is a parameter (`Verifier`): of presigned URLs by `presigned::verify`
  (`presignedVerifier`), of header-signed requests by a dependency, whose errors
  `mapSigv4Error` translates. The request ids the outermost layer draws at random and adds
  to every response are left out.
-/
import S3lite.Http.Presigned

namespace S3lite

open Handler

/-! ## Verification -/

inductive SignatureErrorKind where
  | invalidClientTokenId
  | missingAuthenticationToken
  | incompleteSignature
  | malformedQueryString
  | invalidUriPath
  | invalidBodyEncoding
  | invalidContentType
  | invalidRequestMethod
  | expiredToken
  | signatureDoesNotMatch
  | io
  | internalServiceError
  | other
  deriving DecidableEq, Repr

/-- An error of the signature library, with its text. -/
structure SignatureError where
  kind : SignatureErrorKind
  message : Str
  deriving DecidableEq

def mapSigv4Error (e : SignatureError) : S3Error :=
  let code : S3ErrorCode := match e.kind with
    | .invalidClientTokenId => .invalidAccessKeyId
    | .missingAuthenticationToken => .missingSecurityHeader
    | .incompleteSignature | .malformedQueryString => .authorizationHeaderMalformed
    | .invalidUriPath | .invalidBodyEncoding | .invalidContentType | .invalidRequestMethod => .invalidRequest
    | .expiredToken => .requestTimeTooSkewed
    | .signatureDoesNotMatch =>
      if str "Signature expired" <:+: e.message ∨ str "Signature not yet current" <:+: e.message then .requestTimeTooSkewed
      else .signatureDoesNotMatch
    | .io | .internalServiceError => .internalError
    | .other => .signatureDoesNotMatch
  S3Error.new code e.message

/-- How the two kinds of signed requests are verified, at the server's time. -/
structure Verifier where
  presigned : Time → HttpRequest → Settings → Except Failure Unit
  signed : Time → HttpRequest → Settings → Except SignatureError Unit

/-- For a client whose every request verifies. -/
def acceptAll : Verifier := ⟨fun _ _ _ => .ok (), fun _ _ _ => .ok ()⟩

/-- Presigned URLs are verified by `verify`. -/
def presignedVerifier (cr : Crypto) (signed : Time → HttpRequest → Settings → Except SignatureError Unit) : Verifier :=
  ⟨fun now req config => verify cr now req.method req.path req.query req.headers config, signed⟩

/-- The middleware's answer to a request it does not let through. -/
def refused (uriPath : Str) : Failure → Answer
  | .error e => some (.ofError (e.withResource uriPath))
  | .panicked => none

def bodyTooLargeToVerify : S3Error := S3Error.new .invalidRequest (str "request body too large to verify signature")

/-- A preflight carries no signature. The body of a presigned request is not read here. -/
def sigv4Mw (v : Verifier) (config : Settings) (req : HttpRequest) (next : Prog Op Op.Res Answer) : Prog Op Op.Res Answer :=
  if req.method = .options then next
  else if isPresigned req.query then
    .call .nowUtc fun now =>
      match v.presigned now req config with
      | .ok () => next
      | .error e => .ret (refused req.path e)
  else if config.maxSignedBodyBytes < req.body.length then .ret (refused req.path (.error bodyTooLargeToVerify))
  else
    .call .nowUtc fun now =>
      match v.signed now req config with
      | .ok () => next
      | .error e => .ret (refused req.path (.error (mapSigv4Error e)))

/-! ## Public routes -/

def plainText (contentType text : Str) : Response := ⟨200, [(str "content-type", contentType)], .bytes text⟩

def healthHandler : Prog Op Op.Res Response := .ret (plainText (str "text/plain; charset=utf-8") (str "ok"))

def metricsBody (buckets dlq : Nat) : Str :=
  str "# HELP s3lite_buckets_total Number of buckets currently present.\n" ++
  str "# TYPE s3lite_buckets_total gauge\n" ++
  str "s3lite_buckets_total " ++ natStr buckets ++ str "\n" ++
  str "# HELP s3lite_dlq_entries_total Number of failed webhook deliveries queued for inspection.\n" ++
  str "# TYPE s3lite_dlq_entries_total gauge\n" ++
  str "s3lite_dlq_entries_total " ++ natStr dlq ++ str "\n" ++
  str "# HELP s3lite_build_info Build identification for the running binary.\n" ++
  str "# TYPE s3lite_build_info gauge\n" ++
  str "s3lite_build_info\x7bversion=\"0.1.0\"\x7d 1\n"

def metricsHandler : Prog Op Op.Res Response :=
  .call (.metaOp .listBuckets) fun buckets => .call (.metaOp .listDlq) fun dlq =>
    .ret (plainText (str "text/plain; version=0.0.4") (metricsBody buckets.length dlq.length))

def methodNotAllowed : Response := ⟨405, [(str "allow", str "GET,HEAD")], .empty⟩

/-- `axum::routing::get`: serves GET and, without the body, HEAD. -/
def getRoute (method : Method) (handler : Prog Op Op.Res Response) : Prog Op Op.Res Answer :=
  match method with
  | .get => handler.bind fun r => .ret (some r)
  | .head => handler.bind fun r => .ret (some (dropBody r))
  | _ => .ret (some methodNotAllowed)

/-! ## The app -/

/-- `build_app`: the public routes by their exact path, everything else verified and dispatched. -/
def buildApp (env : Env) (v : Verifier) (config : Settings) (req : HttpRequest) : Prog Op Op.Res Answer :=
  if req.path = str "/health" then getRoute req.method healthHandler
  else if req.path = str "/metrics" then getRoute req.method metricsHandler
  else sigv4Mw v config req (dispatch env config req)

/-- The path of a public route. -/
def isPublic (path : Str) : Bool := decide (path = str "/health" ∨ path = str "/metrics")

/-- What the middleware makes of a request at the given time. -/
def verdict (v : Verifier) (now : Time) (config : Settings) (req : HttpRequest) : Except Failure Unit :=
  if req.method = .options then .ok ()
  else if isPresigned req.query then v.presigned now req config
  else if config.maxSignedBodyBytes < req.body.length then .error (.error bodyTooLargeToVerify)
  else (v.signed now req config).mapError fun e => .error (mapSigv4Error e)

/-- The world when the middleware is done with the request: it has read the clock, or not. -/
def World.verified (w : World) (config : Settings) (req : HttpRequest) : World :=
  if req.method = .options ∨ (isPresigned req.query = false ∧ config.maxSignedBodyBytes < req.body.length) then w
  else { w with clock := w.clock + 1 }

@[simp] theorem World.verified_db (w : World) (config : Settings) (req : HttpRequest) : (w.verified config req).db = w.db := by
  unfold World.verified
  split <;> rfl

@[simp] theorem World.verified_files (w : World) (config : Settings) (req : HttpRequest) :
    (w.verified config req).files = w.files := by
  unfold World.verified
  split <;> rfl

theorem sigv4Mw_run (env : Env) (v : Verifier) (config : Settings) (req : HttpRequest) (next : Prog Op Op.Res Answer)
    (w : World) :
    (sigv4Mw v config req next).run (exec env) w = match verdict v (env.now w.clock) config req with
      | .ok () => next.run (exec env) (w.verified config req)
      | .error e => (refused req.path e, w.verified config req) := by
  unfold sigv4Mw verdict World.verified
  by_cases ho : req.method = .options
  · simp only [ho, if_true, true_or]
  simp only [ho, if_false, false_or]
  by_cases hp : isPresigned req.query = true
  · simp only [hp, if_true, Bool.true_eq_false, false_and, if_false]
    show ((match v.presigned (env.now w.clock) req config with | .ok () => next | .error e => .ret (refused req.path e)) :
      Prog Op Op.Res Answer).run (exec env) _ = _
    cases v.presigned (env.now w.clock) req config <;> rfl
  simp only [Bool.not_eq_true] at hp
  simp only [hp, Bool.false_eq_true, if_false, true_and]
  by_cases hl : config.maxSignedBodyBytes < req.body.length
  · simp only [if_pos hl]
    rfl
  · simp only [if_neg hl]
    show ((match v.signed (env.now w.clock) req config with
      | .ok () => next
      | .error e => .ret (refused req.path (.error (mapSigv4Error e)))) : Prog Op Op.Res Answer).run (exec env) _ = _
    cases v.signed (env.now w.clock) req config <;> rfl

/-- An authenticated request off the public routes is dispatched. -/
theorem buildApp_dispatches {env : Env} {v : Verifier} {config : Settings} {req : HttpRequest} {w : World}
    (hp : isPublic req.path = false) (hv : verdict v (env.now w.clock) config req = .ok ()) :
    (buildApp env v config req).run (exec env) w = (dispatch env config req).run (exec env) (w.verified config req) := by
  simp only [isPublic, decide_eq_false_iff_not, not_or] at hp
  rw [buildApp, if_neg hp.1, if_neg hp.2, sigv4Mw_run, hv]

/-- A presigned URL is dispatched if `verify` accepts it when it comes in, and answered with the
    error of `verify` if not. -/
theorem buildApp_presigned {env : Env} {cr : Crypto} {signed : Time → HttpRequest → Settings → Except SignatureError Unit}
    {config : Settings} {req : HttpRequest} {w : World} (hpub : isPublic req.path = false) (hmethod : req.method ≠ .options)
    (hp : isPresigned req.query = true) :
    (buildApp env (presignedVerifier cr signed) config req).run (exec env) w =
      match verify cr (env.now w.clock) req.method req.path req.query req.headers config with
      | .ok () => (dispatch env config req).run (exec env) { w with clock := w.clock + 1 }
      | .error e => (refused req.path e, { w with clock := w.clock + 1 }) := by
  simp only [isPublic, decide_eq_false_iff_not, not_or] at hpub
  have hverdict : verdict (presignedVerifier cr signed) (env.now w.clock) config req =
      verify cr (env.now w.clock) req.method req.path req.query req.headers config := by
    rw [verdict, if_neg hmethod, if_pos hp]
    rfl
  have hworld : w.verified config req = { w with clock := w.clock + 1 } := by
    rw [World.verified, if_neg]
    simp [hmethod, hp]
  rw [buildApp, if_neg hpub.1, if_neg hpub.2, sigv4Mw_run, hverdict, hworld]

/-- A public route is served, whoever asks. -/
theorem buildApp_public {env : Env} {v : Verifier} {config : Settings} {req : HttpRequest} (hp : isPublic req.path = true) :
    buildApp env v config req = getRoute req.method healthHandler ∨
      buildApp env v config req = getRoute req.method metricsHandler := by
  simp only [isPublic, decide_eq_true_eq] at hp
  by_cases hh : req.path = str "/health"
  · exact Or.inl (if_pos hh)
  · exact Or.inr ((if_neg hh).trans (if_pos (hp.resolve_left hh)))

/-- Every answer of a public route is one of three. -/
theorem getRoute_answer (env : Env) (method : Method) (handler : Prog Op Op.Res Response) (w : World) :
    ((getRoute method handler).run (exec env) w).1 = some (handler.run (exec env) w).1 ∨
      ((getRoute method handler).run (exec env) w).1 = some (dropBody (handler.run (exec env) w).1) ∨
      ((getRoute method handler).run (exec env) w).1 = some methodNotAllowed := by
  unfold getRoute
  split
  · exact Or.inl (congrArg Prod.fst (Prog.run_bind (exec env) handler _ w))
  · exact Or.inr (Or.inl (congrArg Prod.fst (Prog.run_bind (exec env) handler _ w)))
  · exact Or.inr (Or.inr rfl)

/-- The public handlers answer 200, in plain text. -/
theorem publicHandler_answer (env : Env) (w : World) :
    (healthHandler.run (exec env) w).1 = plainText (str "text/plain; charset=utf-8") (str "ok") ∧
      (metricsHandler.run (exec env) w).1 = plainText (str "text/plain; version=0.0.4")
        (metricsBody w.db.buckets.rows.length w.db.eventsDlq.rows.length) := ⟨rfl, rfl⟩

end S3lite
