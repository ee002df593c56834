/-
  S3lite.Access.CrossOrigin — a preflight and the request it lets through.

  The preflight answers with the CORS headers of the rule it picks. The decoration that
  gives the actual request's response its headers is called nowhere.
  - `preflight_accepted_iff`: when the preflight is accepted.
  - `answer_lacks_grant`: no response to a request that is not a preflight admits an origin.
  - `grant_kept_iff`: what a preflight grants is granted exactly where nothing was granted.
  - `decorated_grants`: the decoration, were it called, would grant it.
  - `a_granted_read_is_denied`: a rule for every origin.
-/
import S3lite.Http.Router
import S3lite.Server.Answers
import S3lite.Safety.Pool

namespace S3lite

open Handler

/-! ## Headers of a response -/

def allowOrigin : Str := str "access-control-allow-origin"

/-- The response lets a page of the origin read it. -/
def Response.Admits (r : Response) (origin : Str) : Prop :=
  ∃ value, (allowOrigin, value) ∈ r.headers ∧ (value = str "*" ∨ value = origin)

def Admitted (a : Answer) (origin : Str) : Prop := ∃ r, a = some r ∧ r.Admits origin

def Response.NoGrant (r : Response) : Prop := ∀ h ∈ r.headers, h.1 ≠ allowOrigin

theorem Response.NoGrant.not_admits {r : Response} (h : r.NoGrant) (origin : Str) : ¬ r.Admits origin := by
  rintro ⟨value, hm, -⟩
  exact h _ hm rfl

theorem noGrant_ofError (e : S3Error) : (Response.ofError e).NoGrant := by
  intro h hm
  rw [List.mem_singleton.mp hm]
  decide

/-! ## The actual request -/

/-- A request for which the browser has had its preflight. -/
def Actual (req : HttpRequest) : Prop :=
  req.method = .options → headerString req.headers (str "access-control-request-method") = none

theorem serve_noGrant {env : Env} {uriPath : Str} {r : Except S3Error Route} {w : World}
    (hr : ∀ b headers, r = .ok (.preflight b headers) → headerString headers (str "access-control-request-method") = none)
    {resp : Response} (h : ((serve env uriPath r).run (exec env) w).1 = some resp) : resp.NoGrant := by
  cases r with
  | error e =>
    cases h
    exact noGrant_ofError _
  | ok r =>
    rw [serve, answered_run] at h
    cases r with
    | preflight b headers =>
      have hn := hr b headers rfl
      -- without the requested method a preflight is an error
      have hfail : ∃ e, ((preflight b headers).run env w).1 = .error (.error e) := by
        unfold preflight
        rw [hn]
        cases headerString headers (str "origin") <;> exact ⟨_, rfl⟩
      obtain ⟨e, he⟩ := hfail
      rw [Route.handler, he] at h
      cases h
      exact noGrant_ofError _
    | request r =>
      have hout : Outcome Response.Plain (((Route.request r).handler env).run env w).1 := (route_answers r).run w
      generalize ((Route.request r).handler env).run env w = out at h hout
      rcases out with ⟨(e | _) | resp', w'⟩
      · cases h
        exact noGrant_ofError _
      · cases h
      · cases h
        exact hout.2

theorem route_preflight {method : Method} {addressing : Addressing} {query : Str} {headers : HeaderMap} {body : Bytes}
    {b : Str} {headers' : HeaderMap} (h : route method addressing query headers body = .ok (.preflight b headers')) :
    method = .options ∧ headers' = headers := by
  have hmap : ∀ r : Except S3Error Request, r.map Route.request ≠ .ok (.preflight b headers') := by
    intro r
    cases r <;> exact nofun
  unfold route at h
  split at h
  all_goals first
    | exact absurd h (hmap _)
    | cases h
  exact ⟨rfl, rfl⟩

theorem routed_preflight {config : Settings} {req : HttpRequest} {b : Str} {headers : HeaderMap}
    (h : routed config req = .ok (.preflight b headers)) : req.method = .options ∧ headers = req.headers := by
  cases hx : extract req.host req.path config with
  | error e =>
    rw [routed_of_error hx] at h
    cases h
  | ok addressing =>
    rw [routed_of_extract hx] at h
    split at h
    · cases h
    · exact route_preflight h

/-- No answer to the actual request admits an origin. -/
theorem answer_lacks_grant {env : Env} {v : Verifier} {config : Settings} {req : HttpRequest} {w : World} (ha : Actual req)
    {resp : Response} (h : ((buildApp env v config req).run (exec env) w).1 = some resp) : resp.NoGrant := by
  have hplain : ∀ contentType text, (plainText contentType text).NoGrant := by
    intro contentType text x hx
    rw [List.mem_singleton.mp hx]
    show str "content-type" ≠ allowOrigin
    decide
  have hpublic : ∀ handler : Prog Op Op.Res Response, (handler.run (exec env) w).1.NoGrant →
      ((getRoute req.method handler).run (exec env) w).1 = some resp → resp.NoGrant := by
    intro handler hg hr
    rcases getRoute_answer env req.method handler w with e | e | e <;> rw [e] at hr <;> cases hr
    · exact hg
    · exact hg
    · intro x hx
      rw [List.mem_singleton.mp hx]
      decide
  unfold buildApp at h
  split at h
  · exact hpublic healthHandler (hplain _ _) h
  split at h
  · exact hpublic metricsHandler (hplain _ _) h
  rw [sigv4Mw_run] at h
  split at h
  · refine serve_noGrant (fun b headers hr => ?_) h
    obtain ⟨hm, rfl⟩ := routed_preflight hr
    exact ha hm
  · rename_i e _
    cases e with
    | error e =>
      cases h
      exact noGrant_ofError _
    | panicked => cases h

/-! ## The preflight -/

/-- The preflight of the requests to the bucket from the origin with the method. -/
structure Preflight (config : Settings) (req : HttpRequest) (b origin method : Str) : Prop where
  options : req.method = .options
  bucket : ∃ key, extract req.host req.path config = .ok ⟨some b, key⟩
  origin : headerString req.headers (str "origin") = some origin
  requested : headerString req.headers (str "access-control-request-method") = some method

def Accepted (a : Answer) : Prop := ∃ r, a = some r ∧ r.status = 200

/-- The preflight reaches the bucket, and a rule of it matches. -/
def Matches (config : Settings) (db : Db) (req : HttpRequest) (b origin method : Str) : Prop :=
  isPublic req.path = false ∧ req.body.length ≤ config.maxSignedBodyBytes ∧
    ∃ cfg rule, handleGetBucket db b = some cfg ∧ pickRule cfg.corsRules origin method (requestedHeaders req.headers) = some rule

theorem error_not_accepted (e : S3Error) : ¬ Accepted (some (.ofError e)) := by
  rintro ⟨r, hr, hs⟩
  cases hr
  have hs : e.code.status = 200 := hs
  cases hc : e.code <;> rw [hc] at hs <;> exact absurd hs (by decide)

theorem preflightResponse_status (rule : CorsRule) (origin : Str) (requested : List Str) :
    (preflightResponse rule origin requested).status = 200 := by
  unfold preflightResponse
  dsimp only
  repeat' split
  all_goals rfl

theorem preflight_answer {env : Env} {uriPath b origin method : Str} {headers : HeaderMap} {w : World}
    (ho : headerString headers (str "origin") = some origin)
    (hr : headerString headers (str "access-control-request-method") = some method) :
    Accepted ((answered uriPath (preflight b headers)).run (exec env) w).1 ↔
      ∃ cfg rule, handleGetBucket w.db b = some cfg ∧
        pickRule cfg.corsRules origin method (requestedHeaders headers) = some rule := by
  rw [answered_run, preflight_run ho hr]
  cases hb : handleGetBucket w.db b with
  | none => exact iff_of_false (error_not_accepted _) nofun
  | some cfg =>
    cases hp : pickRule cfg.corsRules origin method (requestedHeaders headers) with
    | none =>
      refine iff_of_false ?_ ?_
      · simp only [hp]
        exact error_not_accepted _
      · rintro ⟨cfg', rule, hc, hr⟩
        cases hc
        rw [hp] at hr
        cases hr
    | some rule =>
      refine iff_of_true ?_ ⟨cfg, rule, rfl, hp⟩
      simp only [hp]
      exact ⟨_, rfl, preflightResponse_status _ _ _⟩

theorem preflight_accepted_iff {env : Env} {v : Verifier} {config : Settings} {req : HttpRequest} {b origin method : Str}
    {w : World} (h : Preflight config req b origin method) :
    Accepted ((buildApp env v config req).run (exec env) w).1 ↔ Matches config w.db req b origin method := by
  by_cases hp : isPublic req.path = true
  · have hno : ∀ handler, ¬ Accepted ((getRoute req.method handler).run (exec env) w).1 := by
      intro handler
      rw [h.options]
      rintro ⟨r, hr, hs⟩
      cases hr
      exact absurd hs (by decide)
    refine iff_of_false ?_ fun hm => absurd hm.1 (by simp [hp])
    rcases buildApp_public hp with e | e <;> rw [e] <;> exact hno _
  simp only [Bool.not_eq_true] at hp
  have hv : verdict v (env.now w.clock) config req = .ok () := if_pos h.options
  have hw : w.verified config req = w := if_pos (Or.inl h.options)
  obtain ⟨key, hx⟩ := h.bucket
  rw [buildApp_dispatches hp hv, hw, dispatch, routed_of_extract hx]
  by_cases hl : config.maxSignedBodyBytes < req.body.length
  · rw [if_pos hl]
    exact iff_of_false (error_not_accepted _) fun hm => absurd hm.2.1 (not_le.mpr hl)
  · rw [if_neg hl, h.options]
    exact (preflight_answer h.origin h.requested).trans ⟨fun hm => ⟨hp, not_lt.mp hl, hm⟩, fun hm => hm.2.2⟩

/-- What the preflight grants, the actual request is refused: only where the preflight is
    refused is nothing lost. -/
theorem grant_kept_iff {env : Env} {v : Verifier} {config : Settings} {pre req : HttpRequest} {b origin : Str} {w w' : World}
    (h : Preflight config pre b origin req.method.name) (ha : Actual req)
    (_hb : ∃ key, extract req.host req.path config = .ok ⟨some b, key⟩)
    (_ho : headerString req.headers (str "origin") = some origin) :
    (Accepted ((buildApp env v config pre).run (exec env) w).1 →
        Admitted ((buildApp env v config req).run (exec env) w').1 origin) ↔
      ¬ Matches config w.db pre b origin req.method.name := by
  rw [preflight_accepted_iff h]
  refine imp_congr_right fun _ => iff_of_false ?_ id
  rintro ⟨r, hr, hadmits⟩
  exact (answer_lacks_grant ha hr).not_admits origin hadmits

/-! ## A read from another site -/

/-- The document that allows every origin to GET. -/
def allowReads : Str := str
  "<CORSConfiguration><CORSRule><AllowedOrigin>*</AllowedOrigin><AllowedMethod>GET</AllowedMethod></CORSRule></CORSConfiguration>"

def corsEnv : Env :=
  { sampleEnv with
    xmlCors := fun b => if b = allowReads then .ok [⟨none, [str "*"], [str "GET"], [], [], none⟩] else .error [] }

/-- The object `k` of `bkt`, which every origin may read. -/
def readable : World :=
  [⟨.put, str "/bkt", none, [], []⟩, ⟨.put, str "/bkt", some (str "cors"), [], allowReads⟩,
    ⟨.put, str "/bkt/k", none, [], str "a"⟩].foldl
    (fun w req => ((buildApp corsEnv acceptAll sampleSettings req).run (exec corsEnv) w).2) .empty

def siteOrigin : Str := str "https://app.example"

def readPreflight : HttpRequest :=
  ⟨.options, str "/bkt/k", none, [(str "origin", siteOrigin), (str "access-control-request-method", str "GET")], []⟩

def siteRead (method : Method) : HttpRequest := ⟨method, str "/bkt/k", none, [(str "origin", siteOrigin)], []⟩

theorem readPreflight_preflight (method : Method) (hm : method.name = str "GET") :
    Preflight sampleSettings readPreflight (str "bkt") siteOrigin (siteRead method).method.name where
  options := rfl
  bucket := ⟨some (str "k"), by rfl⟩
  origin := by rfl
  requested := by
    show _ = some method.name
    rw [hm]
    rfl

theorem grant_kept_get :
    (Accepted ((buildApp corsEnv acceptAll sampleSettings readPreflight).run (exec corsEnv) readable).1 →
        Admitted ((buildApp corsEnv acceptAll sampleSettings (siteRead .get)).run (exec corsEnv) readable).1 siteOrigin) ↔
      ¬ Matches sampleSettings readable.db readPreflight (str "bkt") siteOrigin (siteRead .get).method.name :=
  grant_kept_iff (readPreflight_preflight .get rfl) (fun h => by cases h) ⟨some (str "k"), by rfl⟩ (by rfl)

/-- The preflight answers 200, and the object is read, but no header lets the site have it. -/
theorem a_granted_read_is_denied :
    let granted := (buildApp corsEnv acceptAll sampleSettings readPreflight).run (exec corsEnv) readable
    let read := (buildApp corsEnv acceptAll sampleSettings (siteRead .get)).run (exec corsEnv) granted.2
    Preflight sampleSettings readPreflight (str "bkt") siteOrigin (siteRead .get).method.name ∧
      granted.1.map (·.status) = some 200 ∧
      granted.1.map (·.headers.get allowOrigin) = some (some (str "*")) ∧
      read.1.map (·.body) = some (.bytes (str "a")) ∧
      ¬ Admitted read.1 siteOrigin := by
  have hruns :
      ((buildApp corsEnv acceptAll sampleSettings readPreflight).run (exec corsEnv) readable).1.map (·.status) = some 200 ∧
      ((buildApp corsEnv acceptAll sampleSettings readPreflight).run (exec corsEnv) readable).1.map (·.headers.get allowOrigin) =
        some (some (str "*")) ∧
      ((buildApp corsEnv acceptAll sampleSettings (siteRead .get)).run (exec corsEnv)
        ((buildApp corsEnv acceptAll sampleSettings readPreflight).run (exec corsEnv) readable).2).1.map (·.body) =
          some (.bytes (str "a")) := by
    decide +kernel
  obtain ⟨hstatus, hgrant, hbody⟩ := hruns
  refine ⟨readPreflight_preflight .get rfl, hstatus, hgrant, hbody, ?_⟩
  rintro ⟨r, hr, hadmits⟩
  exact (answer_lacks_grant (fun h => by cases h) hr).not_admits siteOrigin hadmits

/-! ## The decoration -/

theorem pickRule_unheaded {rules : List CorsRule} {origin method : Str} {requested : List Str} {rule : CorsRule}
    (h : pickRule rules origin method requested = some rule) : ∃ rule', pickRule rules origin method [] = some rule' := by
  have hm := List.find?_some h
  refine Option.isSome_iff_exists.mp (List.find?_isSome.mpr ⟨rule, List.mem_of_find?_eq_some h, ?_⟩)
  simp only [ruleMatches, Bool.and_eq_true, List.all_nil] at hm ⊢
  exact ⟨hm.1, trivial⟩

theorem echoOrigin_admits (rule : CorsRule) (origin : Str) : echoOrigin rule origin = str "*" ∨ echoOrigin rule origin = origin := by
  unfold echoOrigin
  split
  · exact Or.inl rfl
  · exact Or.inr rfl

theorem headerString_isHeaderValue {headers : HeaderMap} {name s : Str} (h : headerString headers name = some s) :
    isHeaderValue s = true := by
  obtain ⟨v, -, hv⟩ := Option.bind_eq_some_iff.mp h
  unfold toStr at hv
  split at hv
  · rename_i hall
    cases hv
    refine List.all_eq_true.mpr fun c hc => ?_
    have hc := List.all_eq_true.mp hall c hc
    simp only [Bool.or_eq_true, Bool.and_eq_true, decide_eq_true_eq, beq_iff_eq, bne_iff_ne] at hc ⊢
    rcases hc with ⟨h32, h127⟩ | rfl
    · exact Or.inl ⟨h32, fun e => absurd h127 (by rw [e]; decide)⟩
    · exact Or.inr rfl
  · cases hv

/-- The header stays when another is set. -/
theorem Response.Admits.setHeader {r : Response} {origin : Str} (h : r.Admits origin) {name value : Str}
    (hn : toAsciiLower name ≠ allowOrigin) : (r.setHeader name value).Admits origin := by
  obtain ⟨x, hx, hv⟩ := h
  refine ⟨x, ?_, hv⟩
  show (allowOrigin, x) ∈ S3lite.setHeader r.headers name value
  unfold S3lite.setHeader
  split
  · exact List.mem_append_left _ (List.mem_filter.mpr ⟨hx, by simpa using hn.symm⟩)
  · exact hx

/-- A preflight's grant is the decoration's too, although it picks a rule without the
    requested headers. -/
theorem decorated_grants {env : Env} {config : Settings} {pre req : HttpRequest} {b origin : Str} {w : World}
    (hm : Matches config w.db pre b origin req.method.name) (ho : headerString req.headers (str "origin") = some origin)
    (response : Response) :
    ∃ r, ((applyResponseCors (some b) req.headers response req.method.name).run env w).1 = .ok r ∧ r.Admits origin := by
  obtain ⟨-, -, cfg, rule, hb, hp⟩ := hm
  obtain ⟨rule', hp'⟩ := pickRule_unheaded hp
  refine ⟨decorated rule' origin response, ?_, ?_⟩
  · have hpick : ((handleGetBucket w.db b).bind fun cfg => pickRule cfg.corsRules origin req.method.name []) = some rule' := by
      rw [hb, Option.bind_some, hp']
    unfold applyResponseCors
    rw [ho]
    dsimp only
    rw [Handler.run_bind, Handler.run_op]
    dsimp only [exec, MetaOp.exec]
    rw [hpick]
    rfl
  · have hvalue : isHeaderValue (echoOrigin rule' origin) = true := by
      rcases echoOrigin_admits rule' origin with e | e <;> rw [e]
      · decide
      · exact headerString_isHeaderValue ho
    have hset : (response.setHeader (str "access-control-allow-origin") (echoOrigin rule' origin)).Admits origin := by
      refine ⟨echoOrigin rule' origin, ?_, echoOrigin_admits rule' origin⟩
      show _ ∈ S3lite.setHeader response.headers _ _
      unfold S3lite.setHeader
      rw [if_pos (by rw [hvalue]; decide)]
      exact List.mem_append_right _ (List.mem_singleton_self _)
    unfold decorated
    dsimp only
    split
    · exact (hset.setHeader (by decide)).setHeader (by decide)
    · exact hset.setHeader (by decide)

end S3lite
