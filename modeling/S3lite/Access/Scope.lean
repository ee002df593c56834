/-
  S3lite.Access.Scope — requests for the sub-resources that are out of scope.

  The README answers 501 to them. The dispatcher looks for the sub-resources it knows and
  sends the rest to its catch-all arms, so only a POST is turned away.
  - `out_of_scope_iff`: the answer is 501 and the stores are unchanged exactly for a POST off
    the public routes whose body dispatch takes in.
  - `an_acl_overwrites_the_object`: a PUT of an object's ACL replaces the object.
-/
import S3lite.Http.Router
import S3lite.Server.Answers
import S3lite.Safety.Pool

namespace S3lite

open Handler

/-! ## Sub-resources -/

/-- Those the README leaves out. -/
def outOfScope : List Str :=
  [str "acl", str "policy", str "encryption", str "replication", str "select", str "website", str "notification"]

/-- Those the dispatcher looks for. -/
def implemented : List Str :=
  [str "versioning", str "location", str "versions", str "cors", str "object-lock", str "lifecycle", str "uploads",
    str "uploadId", str "partNumber", str "tagging", str "retention", str "legal-hold"]

/-- An authenticated request on a bucket or an object of it for a sub-resource that is out of scope. -/
structure OutOfScope (v : Verifier) (now : Time) (config : Settings) (req : HttpRequest) : Prop where
  method : req.method ∈ [Method.get, .put, .post, .delete]
  bucket : ∃ b key, extract req.host req.path config = .ok ⟨some b, key⟩
  names : ∃ name ∈ outOfScope, hasQueryFlag req.queryStr name = true
  only : ∀ name ∈ implemented, hasQueryFlag req.queryStr name = false
  verified : verdict v now config req = .ok ()

/-! ## Routes -/

/-- A POST of an unknown sub-resource is not routed. -/
theorem route_post {query : Str} (hn : ∀ name ∈ implemented, hasQueryFlag query name = false) (b : Str) (key : Option Str)
    (headers : HeaderMap) (body : Bytes) : route .post ⟨some b, key⟩ query headers body = .error notImplemented := by
  cases key with
  | none => rfl
  | some k =>
    have huploads : hasQueryFlag query (str "uploads") = false := hn _ (by decide)
    have hid : queryValue query (str "uploadId") = none := queryValue_of_noFlag (hn _ (by decide))
    simp only [route, routePostObject, huploads, hid]
    rfl

/-- Every other request on a bucket is, or names an argument that does not parse. -/
theorem route_not_post {method : Method} (hm : method ∈ [Method.get, .put, .post, .delete]) (hp : method ≠ .post)
    {b : Str} {key : Option Str} {query : Str} {headers : HeaderMap} {body : Bytes} :
    (∃ r, route method ⟨some b, key⟩ query headers body = .ok (.request r)) ∨
      ∃ e, route method ⟨some b, key⟩ query headers body = .error e ∧ e.code ≠ .notImplemented := by
  simp only [List.mem_cons, List.not_mem_nil, or_false] at hm
  rcases hm with rfl | rfl | rfl | rfl
  · cases key <;> exact Or.inl ⟨_, rfl⟩
  · cases key with
    | none => exact Or.inl ⟨_, rfl⟩
    | some k =>
      simp only [route]
      cases hr : routePutObject b k query headers body with
      | ok r => exact Or.inl ⟨r, rfl⟩
      | error e => exact Or.inr ⟨e, rfl, by simp [routePutObject_code hr]⟩
  · exact absurd rfl hp
  · cases key <;> exact Or.inl ⟨_, rfl⟩

/-! ## The answer -/

def Is501 (a : Answer) : Prop := a.map (·.status) = some 501

theorem public_not_501 {env : Env} {v : Verifier} {config : Settings} {req : HttpRequest} (hp : isPublic req.path = true)
    (w : World) : ¬ Is501 ((buildApp env v config req).run (exec env) w).1 := by
  have hh := getRoute_answer env req.method healthHandler w
  have hm := getRoute_answer env req.method metricsHandler w
  rw [(publicHandler_answer env w).1] at hh
  rw [(publicHandler_answer env w).2] at hm
  intro h
  have happ : buildApp env v config req = _ ∨ buildApp env v config req = _ := buildApp_public hp
  rcases happ with e | e
  · rw [e] at h
    rcases hh with ha | ha | ha <;> rw [ha] at h <;> cases h
  · rw [e] at h
    rcases hm with ha | ha | ha <;> rw [ha] at h <;> cases h

theorem request_not_501 (env : Env) (uriPath : Str) (r : Request) (w : World) :
    ¬ Is501 ((serve env uriPath (.ok (.request r))).run (exec env) w).1 := by
  have h : Outcome Response.Plain (((Route.request r).handler env).run env w).1 := (route_answers r).run w
  intro h501
  rw [serve, answered_run] at h501
  generalize ((Route.request r).handler env).run env w = out at h h501
  rcases out with ⟨(e | _) | resp, w'⟩
  · have hs : (decorate e uriPath).code.status = 501 := Option.some.inj h501
    rw [decorate_code] at hs
    cases hc : e.code
    case notImplemented => exact h hc
    all_goals rw [hc] at hs; cases hs
  · cases h501
  · exact h.1 (Option.some.inj h501)

theorem error_is_501 {env : Env} {uriPath : Str} {e : S3Error} {w : World} :
    Is501 ((serve env uriPath (.error e)).run (exec env) w).1 ↔ e.code = .notImplemented := by
  show some (decorate e uriPath).code.status = some 501 ↔ _
  rw [decorate_code, Option.some.injEq]
  cases e.code <;> simp [S3ErrorCode.status]

theorem out_of_scope_iff {env : Env} {v : Verifier} {config : Settings} {req : HttpRequest} {w : World}
    (h : OutOfScope v (env.now w.clock) config req) :
    (Is501 ((buildApp env v config req).run (exec env) w).1 ∧
        ((buildApp env v config req).run (exec env) w).2.db = w.db ∧
        ((buildApp env v config req).run (exec env) w).2.files = w.files) ↔
      isPublic req.path = false ∧ req.method = .post ∧ req.body.length ≤ config.maxSignedBodyBytes := by
  by_cases hpub : isPublic req.path = true
  · exact iff_of_false (fun hc => public_not_501 hpub w hc.1) fun hc => by rw [hpub] at hc; cases hc.1
  rw [Bool.not_eq_true] at hpub
  rw [buildApp_dispatches hpub h.verified, dispatch]
  obtain ⟨b, key, hx⟩ := h.bucket
  rw [routed_of_extract hx]
  by_cases hl : config.maxSignedBodyBytes < req.body.length
  · rw [if_pos hl]
    exact iff_of_false (fun hc => absurd (error_is_501.mp hc.1) (by decide)) fun hc => absurd hc.2.2 (not_le.mpr hl)
  rw [if_neg hl]
  by_cases hp : req.method = .post
  · rw [hp, route_post h.only]
    exact iff_of_true ⟨error_is_501.mpr rfl, World.verified_db .., World.verified_files ..⟩ ⟨hpub, rfl, not_lt.mp hl⟩
  · refine iff_of_false (fun hc => ?_) fun hc => hp hc.2.1
    rcases route_not_post h.method hp with ⟨r, hr⟩ | ⟨e, he, hne⟩
    · rw [hr] at hc
      exact request_not_501 env _ r _ hc.1
    · rw [he] at hc
      exact hne (error_is_501.mp hc.1)

/-! ## An ACL -/

/-- The requests, in order, from the empty store. -/
def serveAll (requests : List HttpRequest) : World :=
  requests.foldl (fun w req => ((buildApp sampleEnv acceptAll sampleSettings req).run (exec sampleEnv) w).2) .empty

/-- The object `k` of `bkt`, with the content `a`. -/
def oneObject : World := serveAll [⟨.put, str "/bkt", none, [], []⟩, ⟨.put, str "/bkt/k", none, [], str "a"⟩]

theorem outOfScope_bkt {method : Method} (hm : method ∈ [Method.get, .put, .post, .delete]) (body : Bytes)
    (hl : body.length ≤ sampleSettings.maxSignedBodyBytes) (now : Time) :
    OutOfScope acceptAll now sampleSettings ⟨method, str "/bkt/k", some (str "acl"), [], body⟩ where
  method := hm
  bucket := ⟨str "bkt", some (str "k"), by
    show extract none (str "/bkt/k") sampleSettings = _
    rfl⟩
  names := ⟨str "acl", by decide, by
    show hasQueryFlag (str "acl") (str "acl") = true
    rfl⟩
  only := by
    show ∀ name ∈ implemented, hasQueryFlag (str "acl") name = false
    decide
  verified := by
    have hs : isPresigned (some (str "acl")) = false := by rfl
    have ho : method ≠ .options := by
      rintro rfl
      simp at hm
    simp [verdict, acceptAll, hs, ho, not_lt.mpr hl, Except.mapError]

theorem out_of_scope_post :
    (Is501 ((buildApp sampleEnv acceptAll sampleSettings ⟨.post, str "/bkt/k", some (str "acl"), [], []⟩).run (exec sampleEnv)
          oneObject).1 ∧
        ((buildApp sampleEnv acceptAll sampleSettings ⟨.post, str "/bkt/k", some (str "acl"), [], []⟩).run (exec sampleEnv)
          oneObject).2.db = oneObject.db ∧
        ((buildApp sampleEnv acceptAll sampleSettings ⟨.post, str "/bkt/k", some (str "acl"), [], []⟩).run (exec sampleEnv)
          oneObject).2.files = oneObject.files) ↔
      isPublic (str "/bkt/k") = false ∧ Method.post = .post ∧ ([] : Bytes).length ≤ sampleSettings.maxSignedBodyBytes :=
  out_of_scope_iff (outOfScope_bkt (by decide) [] (by decide) _)

/-- `PUT /bkt/k?acl`: the answer is 200, and the object's content is the ACL's document. -/
theorem an_acl_overwrites_the_object :
    let req : HttpRequest := ⟨.put, str "/bkt/k", some (str "acl"), [], str "b"⟩
    let served := (buildApp sampleEnv acceptAll sampleSettings req).run (exec sampleEnv) oneObject
    OutOfScope acceptAll (sampleEnv.now oneObject.clock) sampleSettings req ∧
      served.1.map (·.status) = some 200 ∧
      (handleGetLatestVersion oneObject.db (str "bkt") (str "k")).map (fun m => m.parts.map (·.hash)) =
        some [sampleEnv.blake3 (str "a")] ∧
      (handleGetLatestVersion served.2.db (str "bkt") (str "k")).map (fun m => m.parts.map (·.hash)) =
        some [sampleEnv.blake3 (str "b")] :=
  ⟨outOfScope_bkt (by decide) (str "b") (by decide) _, by rfl, by rfl, by rfl⟩

end S3lite
