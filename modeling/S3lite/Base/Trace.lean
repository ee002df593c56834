/-
  S3lite.Base.Trace — concrete runs of a pool of programs, played from a schedule.

  `play` starts the programs of a schedule and steps them in its order; each step has to
  pass a check.
  - `Reach.play`: what a schedule plays to is reached, when the check implies the guard.
    The check may rely on the programs beyond the schedule's not having started (`Quiet`).
  - `meets_of_check`: a program alone, every operation of it checked.
-/
import S3lite.Base.Prog

namespace S3lite

variable {Op : Type} {Res : Op → Type} {W G : Type}

/-- Every operation of a run alone passes the check. -/
def Prog.meetsCheck {α : Type} (exec : (op : Op) → W → Res op × W) (check : W → Op → Bool) : Prog Op Res α → W → Bool
  | .ret _, _ => true
  | .call op k, w => check w op && meetsCheck exec check (k (exec op w).1) (exec op w).2

theorem Prog.meets_of_check {α : Type} {exec : (op : Op) → W → Res op × W} {check : W → Op → Bool} {Fits : W → Op → Prop}
    (hcheck : ∀ w op, check w op = true → Fits w op) {p : Prog Op Res α} {w : W} (h : p.meetsCheck exec check w = true) :
    p.Meets exec Fits w := by
  induction p generalizing w with
  | ret a => trivial
  | call op k ih =>
    obtain ⟨hop, hrest⟩ := Bool.and_eq_true_iff.mp h
    exact ⟨hcheck w op hop, ih _ hrest⟩

inductive Move (Op : Type) (Res : Op → Type) where
  /-- Start a program. -/
  | start (i : Nat) (p : Prog Op Res Unit)
  /-- Let it perform its next operations. -/
  | steps (i n : Nat)

/-- The move is about one of the first `n` programs, and starts only what may be started. -/
def Move.Fits (Start : Prog Op Res Unit → Prop) (n : Nat) : Move Op Res → Prop
  | start i p => i < n ∧ Start p
  | steps i _ => i < n

section
variable (exec : (op : Op) → W → Res op × W) (P : Prog.Protocol Op Res G) (g0 : G)
variable (check : Config Op Res W G → Nat → Op → Bool)

/-- From the `n`-th on, no program has started. -/
def Config.Quiet (n : Nat) (c : Config Op Res W G) : Prop := ∀ j, n ≤ j → c.pool j = (g0, .ret ())

def Config.stepN (i : Nat) : Nat → Config Op Res W G → Option (Config Op Res W G)
  | 0, c => some c
  | n + 1, c =>
    match (c.pool i).2 with
    | .ret _ => none
    | .call op k => if check c i op then stepN i n (c.perform exec P i op k) else none

def Config.play : List (Move Op Res) → Config Op Res W G → Option (Config Op Res W G)
  | [], c => some c
  | .start i p :: ms, c =>
    match (c.pool i).2 with
    | .ret _ => play ms (c.set i g0 p)
    | .call .. => none
  | .steps i n :: ms, c => (c.stepN exec P check i n).bind (play ms)

end

section
variable {exec : (op : Op) → W → Res op × W} {P : Prog.Protocol Op Res G} {g0 : G}
variable {Start : Prog Op Res Unit → Prop} {Guard : Config Op Res W G → Nat → Op → Prop}
variable {check : Config Op Res W G → Nat → Op → Bool} {n : Nat} {w0 : W}

theorem Config.Quiet.set {c : Config Op Res W G} (hq : c.Quiet g0 n) {i : Nat} (hi : i < n) (g : G)
    (p : Prog Op Res Unit) : (c.set i g p).Quiet g0 n := by
  intro j hj
  rw [c.set_pool, if_neg (by omega)]
  exact hq j hj

theorem Config.Quiet.perform {c : Config Op Res W G} (hq : c.Quiet g0 n) {i : Nat} (hi : i < n) (op : Op)
    (k : Res op → Prog Op Res Unit) : (c.perform exec P i op k).Quiet g0 n := fun j hj => hq.set hi _ _ j hj

theorem Reach.stepN (hcheck : ∀ c i op, c.Quiet g0 n → check c i op = true → Guard c i op) {i : Nat} (hi : i < n)
    {m : Nat} {c c' : Config Op Res W G} (h : Reach exec P g0 Start Guard w0 c) (hq : c.Quiet g0 n)
    (hp : c.stepN exec P check i m = some c') : Reach exec P g0 Start Guard w0 c' ∧ c'.Quiet g0 n := by
  induction m generalizing c with
  | zero => cases hp; exact ⟨h, hq⟩
  | succ m ih =>
    simp only [Config.stepN] at hp
    cases hk : (c.pool i).2 with
    | ret a => rw [hk] at hp; cases hp
    | call op k =>
      rw [hk] at hp
      simp only at hp
      split at hp
      · rename_i hc
        exact ih (.step i op k h hk (hcheck c i op hq hc)) (hq.perform hi op k) hp
      · cases hp

/-- What a schedule plays to is reached. -/
theorem Reach.play (hcheck : ∀ c i op, c.Quiet g0 n → check c i op = true → Guard c i op) {ms : List (Move Op Res)}
    (hms : ∀ m ∈ ms, m.Fits Start n) {c c' : Config Op Res W G} (h : Reach exec P g0 Start Guard w0 c)
    (hq : c.Quiet g0 n) (hp : c.play exec P g0 check ms = some c') : Reach exec P g0 Start Guard w0 c' := by
  induction ms generalizing c with
  | nil => cases hp; exact h
  | cons m ms ih =>
    have hrest : ∀ m ∈ ms, m.Fits Start n := fun x hx => hms x (List.mem_cons_of_mem _ hx)
    have hm := hms m (List.mem_cons_self ..)
    cases m with
    | start i p =>
      simp only [Config.play] at hp
      cases hk : (c.pool i).2 with
      | ret a => rw [hk] at hp; exact ih hrest (.start i p h hk hm.2) (hq.set hm.1 _ _) hp
      | call op k => rw [hk] at hp; cases hp
    | steps i m =>
      simp only [Config.play] at hp
      cases hs : c.stepN exec P check i m with
      | none => rw [hs] at hp; cases hp
      | some c1 =>
        rw [hs] at hp
        obtain ⟨h1, hq1⟩ := h.stepN hcheck hm hq hs
        exact ih hrest h1 hq1 hp

/-- A schedule that plays to a configuration of a property shows that one is reached. -/
theorem Reach.exists_play (hcheck : ∀ c i op, c.Quiet g0 n → check c i op = true → Guard c i op)
    {ms : List (Move Op Res)} (hms : ∀ m ∈ ms, m.Fits Start n) {Q : Config Op Res W G → Bool}
    (hp : ((⟨w0, fun _ => (g0, .ret ())⟩ : Config Op Res W G).play exec P g0 check ms).any Q = true) :
    ∃ c, Reach exec P g0 Start Guard w0 c ∧ Q c = true := by
  cases hc : (⟨w0, fun _ => (g0, .ret ())⟩ : Config Op Res W G).play exec P g0 check ms with
  | none => rw [hc] at hp; cases hp
  | some c => rw [hc] at hp; exact ⟨c, Reach.play hcheck hms .init (fun _ _ => rfl) hc, hp⟩

end

end S3lite
