/-
  S3lite.Access.Reload — hot reload under requests in flight: which configuration a request
  runs on.

  A request enters with the middleware's read. It "runs to completion on the snapshot it saw
  at entry" if all its reads agree, and that is not so as built: every layer reads for itself.
  - `a_reload_splits_a_request`: a bucket created with another region than the one its request
    was verified and addressed under.
  - `config_reads_agree`: in every run whose reloads find no request at work that has read
    another configuration and, by what it has read, has a read left (`App.left`), every request
    reads one configuration, and is the app at that configuration.
-/
import S3lite.Http.App
import S3lite.Safety.Pool

namespace S3lite

/-- What runs at once: requests, reloads and sweeps. -/
inductive Task where
  | request (req : HttpRequest)
  | reload (config : Settings)
  | sweep

/-- A request, its answer sent. -/
def respond (env : Env) (v : Verifier) (req : HttpRequest) : AppProg Unit := (App.buildApp env v req).bind fun _ => .ret ()

def Task.program (env : Env) (v : Verifier) : Task → AppProg Unit
  | request req => respond env v req
  | reload config => S3lite.reload config
  | sweep => (Handler.discard sweepOnce).plain

/-- Whether a read is left, by what the task has read. -/
def Task.left (v : Verifier) : Task → List Settings → Prop
  | request req => App.left v req
  | reload _ | sweep => fun _ => False

abbrev AppConfig := CellConfig Task Op Op.Res World Settings

/-- The server's runs: a request's ghost state is what it has read. -/
abbrev Serving (env : Env) (v : Verifier) (Guard : AppConfig → Nat → Task × AppOp → Prop) (start : AppState) : AppConfig → Prop :=
  Loading (exec env) (Task.program env v) (Task.left v) Guard start

theorem task_follows (env : Env) (v : Verifier) (task : Task) :
    (task.program env v).Follows (loading (task.left v)) (fun _ _ => True) [] := by
  cases task with
  | request req =>
    show ((App.buildApp env v req).bind fun _ => .ret ()).Follows _ _ _
    rw [Prog.follows_bind]
    exact App.follows_buildApp v req
  | reload config => exact ⟨trivial, fun _ _ => trivial⟩
  | sweep => exact follows_plain _ fun _ => trivial

theorem config_reads_agree {env : Env} {v : Verifier} {start : AppState} {c : AppConfig}
    (h : Serving env v (Spares (Task.left v)) start c) (j : Nat) :
    Agree (c.ghosts j) ∧ ∀ req op, (c.pool j).2.pending = some (.request req, op) → ∀ config, (∀ s ∈ c.ghosts j, s = config) →
      ((buildApp { env with region := config.region } v config req).bind fun _ => .ret ()).LeftOf
        ((c.pool j).2.untag.resolve config) := by
  refine ⟨h.agree (task_follows env v) j, fun req op hp config hs => ?_⟩
  have hleft := h.resolved hp hs
  have hresolve : ((Task.request req).program env v).resolve config =
      (buildApp { env with region := config.region } v config req).bind fun _ => .ret () := by
    show ((App.buildApp env v req).bind fun _ => .ret ()).resolve config = _
    rw [Prog.resolve_bind, App.resolve_buildApp]
    rfl
  rw [← hresolve]
  exact hleft

/-! ## Two runs -/

def oldSettings : Settings := .new (str "us-east-1") (str "AKID") (str "secret")

/-- The region has changed. -/
def newSettings : Settings := .new (str "eu-west-1") (str "AKID") (str "secret")

/-- PUT /photos -/
def putPhotos : HttpRequest := ⟨.put, str "/photos", none, [], []⟩

/-- The request performs so many operations before the reload. -/
def reloadAfter (n : Nat) : List (Move (Task × AppOp) (fun l => l.2.Res Op.Res)) :=
  [.start 0 (((Task.request putPhotos).program sampleEnv acceptAll).tag (.request putPhotos)),
    .start 1 (((Task.reload newSettings).program sampleEnv acceptAll).tag (.reload newSettings)),
    .steps 0 n, .steps 1 1, .steps 0 (6 - n)]

theorem reloadAfter_fits {n : Nat} :
    ∀ m ∈ reloadAfter n, m.Fits (fun p => ∃ task, p = (Task.program sampleEnv acceptAll task).tag task) 2 := by
  intro m hm
  simp only [reloadAfter, List.mem_cons, List.not_mem_nil, or_false] at hm
  rcases hm with rfl | rfl | rfl | rfl | rfl
  · exact ⟨by omega, _, rfl⟩
  · exact ⟨by omega, _, rfl⟩
  · show (0 : Nat) < 2
    omega
  · show (1 : Nat) < 2
    omega
  · show (0 : Nat) < 2
    omega

def playServing (check : AppConfig → Nat → Task × AppOp → Bool) (n : Nat) : Option AppConfig :=
  (⟨(.empty, oldSettings), fun _ => ([], .ret ())⟩ : AppConfig).play (fun l => cellExec (exec sampleEnv) l.2)
    (Prog.Protocol.tagged fun task => loading (Task.left acceptAll task)) [] check (reloadAfter n)

/-- A schedule that plays under the check, from the empty stores. -/
theorem serving_exists {Guard : AppConfig → Nat → Task × AppOp → Prop} (check : AppConfig → Nat → Task × AppOp → Bool)
    (hcheck : ∀ c i l, c.Quiet [] 2 → check c i l = true → Guard c i l) (n : Nat) (Q : AppConfig → Bool)
    (hplay : (playServing check n).any Q = true) :
    ∃ c, Serving sampleEnv acceptAll Guard (.empty, oldSettings) c ∧ Q c = true :=
  Reach.exists_play hcheck reloadAfter_fits hplay

/-- The reload comes when nobody has read, or has read for the last time. -/
def readsPast (c : AppConfig) (_ : Nat) (l : Task × AppOp) : Bool :=
  match l.2 with
  | .store _ => (List.range 2).all fun j => (c.ghosts j).isEmpty || decide (2 < (c.ghosts j).length)
  | _ => true

theorem not_left_of_length {v : Verifier} {task : Task} {g : List Settings} (h : 2 < g.length) : ¬ task.left v g := by
  cases task with
  | request req =>
    match g, h with
    | _ :: _ :: _ :: _, _ => exact id
  | reload config => exact id
  | sweep => exact id

theorem spares_of_readsPast {c : AppConfig} {i : Nat} {l : Task × AppOp} (hq : c.Quiet [] 2) (h : readsPast c i l = true) :
    Spares (Task.left acceptAll) c i l := by
  intro config hstore j next _
  unfold readsPast at h
  rw [hstore] at h
  by_cases hj : j < 2
  · rcases Bool.or_eq_true_iff.mp (List.all_eq_true.mp h j (List.mem_range.mpr hj)) with hnone | hlong
    · left
      rw [List.isEmpty_iff.mp hnone]
      exact fun _ ht => absurd ht List.not_mem_nil
    · exact Or.inr (not_left_of_length (of_decide_eq_true hlong))
  · left
    have hnone : c.ghosts j = [] := congrArg Prod.fst (hq j (by omega))
    rw [hnone]
    exact fun _ ht => absurd ht List.not_mem_nil

theorem config_reads_agree_past_last_read : ∃ c,
    Serving sampleEnv acceptAll (Spares (Task.left acceptAll)) (.empty, oldSettings) c ∧
      c.world.2 = newSettings ∧ c.ghosts 0 = [oldSettings, oldSettings, oldSettings] ∧ Agree (c.ghosts 0) := by
  obtain ⟨c, hc, hq⟩ := serving_exists readsPast (fun _ _ _ => spares_of_readsPast) 5
    (fun c => decide (c.world.2 = newSettings ∧ c.ghosts 0 = [oldSettings, oldSettings, oldSettings])) (by rfl)
  obtain ⟨hnew, hread⟩ := of_decide_eq_true hq
  exact ⟨c, hc, hnew, hread, (config_reads_agree hc 0).1⟩

theorem a_reload_splits_a_request : ¬ ∀ (env : Env) (v : Verifier) (start : AppState) (c : AppConfig),
    Serving env v (fun _ _ _ => True) start c → ∀ j, Agree (c.ghosts j) := by
  intro hall
  obtain ⟨c, hc, hq⟩ := serving_exists (fun _ _ _ => true) (fun _ _ _ _ _ => trivial) 4
    (fun c => decide (c.ghosts 0 = [newSettings, oldSettings, oldSettings])) (by rfl)
  have hsplit := hall sampleEnv acceptAll (.empty, oldSettings) c hc 0
  rw [of_decide_eq_true hq] at hsplit
  revert hsplit
  decide

end S3lite
