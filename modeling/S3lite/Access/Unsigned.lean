/-
  S3lite.Access.Unsigned — what a stranger can do and learn.

  Verification is any predicate of request, settings and time. A request it does not accept,
  or is never asked about, is a read of the bucket table and of the length of the DLQ at
  most.
  - `Secluded`: a program that changes no store and whose answer depends on that view alone;
    one lemma for each thing that answers a stranger.
  - `routed_options`: an OPTIONS request is a preflight, or an error of dispatch.
  - `unsigned_learns_nothing`: no such request changes a store, and its answer is the same in
    any two states with the same view.
-/
import S3lite.Http.Router
import S3lite.Safety.Pool

namespace S3lite

open Handler

/-! ## The stranger's view -/

/-- The bucket table and the length of the DLQ. -/
structure SameView (w w' : World) : Prop where
  buckets : w.db.buckets = w'.db.buckets
  dlq : w.db.eventsDlq.rows.length = w'.db.eventsDlq.rows.length

/-- The four tables and the part files are the same. -/
structure Unmoved (w w' : World) : Prop where
  db : w'.db = w.db
  files : w'.files = w.files

theorem Unmoved.refl (w : World) : Unmoved w w := ⟨rfl, rfl⟩

/-- Changes no store, and answers by the view. -/
structure Secluded (env : Env) (x : Prog Op Op.Res Answer) : Prop where
  unmoved : ∀ w, Unmoved w (x.run (exec env) w).2
  blind : ∀ w w', SameView w w' → (x.run (exec env) w).1 = (x.run (exec env) w').1

section
variable {env : Env}

theorem secluded_ret (a : Answer) : Secluded env (.ret a) where
  unmoved := Unmoved.refl
  blind := fun _ _ _ => rfl

/-! ## Public routes -/

theorem getRoute_run {env : Env} {method : Method} {handler : Prog Op Op.Res Response} {w : World} :
    (getRoute method handler).run (exec env) w = match method with
      | .get => (some (handler.run (exec env) w).1, (handler.run (exec env) w).2)
      | .head => (some (dropBody (handler.run (exec env) w).1), (handler.run (exec env) w).2)
      | _ => (some methodNotAllowed, w) := by
  cases method
  case get => exact Prog.run_bind (exec env) handler _ w
  case head => exact Prog.run_bind (exec env) handler _ w
  all_goals rfl

theorem secluded_getRoute {handler : Prog Op Op.Res Response} (hu : ∀ w, Unmoved w (handler.run (exec env) w).2)
    (hb : ∀ w w', SameView w w' → (handler.run (exec env) w).1 = (handler.run (exec env) w').1) (method : Method) :
    Secluded env (getRoute method handler) where
  unmoved w := by
    rw [getRoute_run]
    cases method
    case get => exact hu w
    case head => exact hu w
    all_goals exact Unmoved.refl w
  blind w w' h := by
    rw [getRoute_run, getRoute_run]
    cases method
    case get => exact congrArg some (hb w w' h)
    case head => exact congrArg (fun r => some (dropBody r)) (hb w w' h)
    all_goals rfl

theorem secluded_health (method : Method) : Secluded env (getRoute method healthHandler) :=
  secluded_getRoute (fun _ => ⟨rfl, rfl⟩) (fun _ _ _ => rfl) method

theorem secluded_metrics (method : Method) : Secluded env (getRoute method metricsHandler) := by
  refine secluded_getRoute (fun w => ⟨rfl, rfl⟩) (fun w w' h => ?_) method
  rw [(publicHandler_answer env w).2, (publicHandler_answer env w').2, h.buckets, h.dlq]

/-! ## Preflights -/

theorem secluded_preflight (uriPath b : Str) (headers : HeaderMap) : Secluded env (answered uriPath (preflight b headers)) := by
  cases ho : headerString headers (str "origin") with
  | none =>
    have hp : preflight b headers = fail (preflightRequires (str "Origin header")) := by
      rw [preflight, ho]
      rfl
    rw [hp]
    exact secluded_ret _
  | some origin =>
    cases hr : headerString headers (str "access-control-request-method") with
    | none =>
      have hp : preflight b headers = fail (preflightRequires (str "Access-Control-Request-Method")) := by
        rw [preflight, ho, hr]
        rfl
      rw [hp]
      exact secluded_ret _
    | some method =>
      refine ⟨fun w => ?_, fun w w' h => ?_⟩
      · rw [answered_run, preflight_run ho hr]
        exact ⟨rfl, rfl⟩
      · rw [answered_run, answered_run, preflight_run ho hr, preflight_run ho hr, handleGetBucket, handleGetBucket, h.buckets]

/-- An OPTIONS request never becomes a client's request. -/
theorem routed_options (config : Settings) {req : HttpRequest} (h : req.method = .options) :
    (∃ e, routed config req = .error e) ∨ ∃ b, routed config req = .ok (.preflight b req.headers) := by
  cases hx : extract req.host req.path config with
  | error e => exact Or.inl ⟨e, routed_of_error hx⟩
  | ok addressing =>
    rw [routed_of_extract hx, h]
    by_cases hl : config.maxSignedBodyBytes < req.body.length
    · exact Or.inl ⟨_, if_pos hl⟩
    · rw [if_neg hl]
      obtain ⟨bucket, key⟩ := addressing
      cases bucket with
      | none => exact Or.inl ⟨_, rfl⟩
      | some b => exact Or.inr ⟨b, rfl⟩

theorem secluded_dispatch {config : Settings} {req : HttpRequest} (h : req.method = .options) :
    Secluded env (dispatch env config req) := by
  unfold dispatch
  rcases routed_options config h with ⟨e, he⟩ | ⟨b, hb⟩
  · rw [he]
    exact secluded_ret _
  · rw [hb]
    exact secluded_preflight req.path b req.headers

end

/-! ## The app -/

/-- No signature of the request is accepted at the given time. -/
def Unaccepted (v : Verifier) (now : Time) (config : Settings) (req : HttpRequest) : Prop :=
  isPublic req.path = true ∨ req.method = .options ∨ ∃ e, verdict v now config req = .error e

theorem buildApp_unaccepted (env : Env) {v : Verifier} {now : Time} {config : Settings} {req : HttpRequest}
    (h : Unaccepted v now config req) :
    ∃ x, Secluded env x ∧ ∀ w, env.now w.clock = now → ∃ w₀, Unmoved w w₀ ∧
      (buildApp env v config req).run (exec env) w = x.run (exec env) w₀ := by
  by_cases hp : isPublic req.path = true
  · have happ : buildApp env v config req = _ ∨ buildApp env v config req = _ := buildApp_public hp
    rcases happ with e | e <;> rw [e]
    · exact ⟨_, secluded_health _, fun w _ => ⟨w, .refl w, rfl⟩⟩
    · exact ⟨_, secluded_metrics _, fun w _ => ⟨w, .refl w, rfl⟩⟩
  simp only [Bool.not_eq_true] at hp
  have hroutes := hp
  simp only [isPublic, decide_eq_false_iff_not, not_or] at hroutes
  by_cases ho : req.method = .options
  · refine ⟨dispatch env config req, secluded_dispatch ho, fun w _ => ⟨w.verified config req, ⟨by simp, by simp⟩, ?_⟩⟩
    exact buildApp_dispatches hp (if_pos ho)
  · obtain ⟨e, he⟩ := (h.resolve_left (by simp [hp])).resolve_left ho
    refine ⟨_, secluded_ret (refused req.path e), fun w hw => ⟨w.verified config req, ⟨by simp, by simp⟩, ?_⟩⟩
    rw [buildApp, if_neg hroutes.1, if_neg hroutes.2, sigv4Mw_run, hw, he]
    rfl

/-- A request that is not accepted moves nothing, and tells no two states apart in which it
    is asked at the same time and sees the same. -/
theorem unsigned_learns_nothing {env : Env} {v : Verifier} {config : Settings} {req : HttpRequest} {w w' : World}
    (hu : Unaccepted v (env.now w.clock) config req) :
    Unmoved w ((buildApp env v config req).run (exec env) w).2 ∧
      (env.now w'.clock = env.now w.clock → SameView w w' →
        ((buildApp env v config req).run (exec env) w).1 = ((buildApp env v config req).run (exec env) w').1) := by
  obtain ⟨x, hx, hruns⟩ := buildApp_unaccepted env hu
  obtain ⟨w₀, hw, e⟩ := hruns w rfl
  rw [e]
  refine ⟨⟨(hx.unmoved w₀).db.trans hw.db, (hx.unmoved w₀).files.trans hw.files⟩, fun ht hv => ?_⟩
  obtain ⟨w₀', hw', e'⟩ := hruns w' ht
  rw [e']
  exact hx.blind w₀ w₀' ⟨by rw [hw.db, hw'.db, hv.buckets], by rw [hw.db, hw'.db, hv.dlq]⟩

/-- A client without a signature. -/
def rejectAll : Verifier :=
  ⟨fun _ _ _ => .error (.error (S3Error.new .accessDenied [])), fun _ _ _ => .error ⟨.missingAuthenticationToken, []⟩⟩

/-- One object in one bucket. -/
def stocked : World :=
  [⟨.put, str "/bkt", none, [], []⟩, ⟨.put, str "/bkt/k", none, [], str "a"⟩].foldl
    (fun w req => ((buildApp sampleEnv acceptAll sampleSettings req).run (exec sampleEnv) w).2) .empty

/-- The same bucket without the object. -/
def unstocked : World := { stocked with db := { stocked.db with objects := .empty, parts := .empty }, files := .empty }

theorem unsigned_learns_nothing_of_an_object :
    let read : HttpRequest := ⟨.get, str "/bkt/k", none, [], []⟩
    Unmoved stocked ((buildApp sampleEnv rejectAll sampleSettings read).run (exec sampleEnv) stocked).2 ∧
      (sampleEnv.now unstocked.clock = sampleEnv.now stocked.clock → SameView stocked unstocked →
        ((buildApp sampleEnv rejectAll sampleSettings read).run (exec sampleEnv) stocked).1 =
          ((buildApp sampleEnv rejectAll sampleSettings read).run (exec sampleEnv) unstocked).1) :=
  unsigned_learns_nothing (Or.inr (Or.inr ⟨_, rfl⟩))

end S3lite
