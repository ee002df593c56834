/-
  S3lite.Base.Lowering — operations implemented by programs of finer operations.

  An implementation (`impl`) turns a program over atomic operations into one over finer ones
  (`Prog.lower`), whose steps interleave with those of other programs.
  - A `Contract` says what the implementation of one operation does with each finer one: what
    it may perform, and how its ghost state moves. At one of its steps the operation takes effect,
    with the result that the implementation returns (`Delivers`).
  - `Reach.lowered`: if every step keeps a relation between the two worlds, and the step at which an
    operation takes effect does to the one what the operation does to the other, every run of
    the lowered programs is a run of the programs themselves.
-/
import S3lite.Base.Prog

namespace S3lite

namespace Prog

variable {Op COp : Type} {Res : Op → Type} {CRes : COp → Type} {G A α : Type}

/-- The program with each operation implemented. -/
def lower (impl : (op : Op) → Prog COp CRes (Res op)) : Prog Op Res α → Prog COp CRes α
  | ret a => ret a
  | call op k => (impl op).bind fun r => lower impl (k r)

/-- What an implementation does in a ghost state, before its operation takes effect and after,
    when the result is there. -/
structure Contract (COp : Type) (CRes : COp → Type) (G A : Type) where
  ok : G → Option A → COp → Prop
  moves : G → Option A → (c : COp) → CRes c → G → Option A → Prop

/-- The rest of an implementation keeps the contract, and returns the result. -/
def Delivers (C : Contract COp CRes G A) : Prog COp CRes A → G → Option A → Prop
  | ret r, _, result => result = some r
  | call c k, g, result => C.ok g result c ∧ ∀ x g' result', C.moves g result c x g' result' → Delivers C (k x) g' result'

variable (impl : (op : Op) → Prog COp CRes (Res op)) (C : (op : Op) → Contract COp CRes G (Res op)) (g0 : G)

/-- Where a lowered program is, against the program. -/
inductive Stage : Prog Op Res Unit → Prog COp CRes Unit → G → Prop
  | between (p : Prog Op Res Unit) : Stage p (p.lower impl) g0
  | before {op : Op} (k : Res op → Prog Op Res Unit) {q : Prog COp CRes (Res op)} {g : G} : Delivers (C op) q g none →
      Stage (call op k) (q.bind fun r => (k r).lower impl) g
  | after {op : Op} (k : Res op → Prog Op Res Unit) {q : Prog COp CRes (Res op)} {g : G} {r : Res op} :
      Delivers (C op) q g (some r) → Stage (k r) (q.bind fun r => (k r).lower impl) g

variable {impl C g0} {p : Prog Op Res Unit} {g : G}

/-- An operation about to be performed is one of an implementation. -/
theorem lower_call (himpl : ∀ op, Delivers (C op) (impl op) g0 none) {c : COp} {k : CRes c → Prog COp CRes Unit}
    (h : p.lower impl = call c k) :
    ∃ op ka kq, p = call op ka ∧ Delivers (C op) (call c kq) g0 none ∧ k = fun x => (kq x).bind fun r => (ka r).lower impl := by
  cases p with
  | ret a => cases h
  | call op ka =>
    have hop := himpl op
    rw [lower] at h
    cases himp : impl op with
    | ret r =>
      rw [himp] at hop
      cases hop
    | call c' kq =>
      rw [himp] at h hop
      cases h
      exact ⟨op, ka, kq, rfl, hop, rfl⟩

theorem lower_ret (himpl : ∀ op, Delivers (C op) (impl op) g0 none) (h : p.lower impl = ret ()) : p = ret () := by
  cases p with
  | ret a => rfl
  | call op k =>
    have hop := himpl op
    rw [lower] at h
    cases himp : impl op with
    | ret r =>
      rw [himp] at hop
      cases hop
    | call c k =>
      rw [himp] at h
      cases h

/-- A lowered program that has ended is at the end of the program. -/
theorem Stage.finished (himpl : ∀ op, Delivers (C op) (impl op) g0 none) (h : Stage impl C g0 p (ret ()) g) : p = ret () := by
  generalize hq : (ret () : Prog COp CRes Unit) = q at h
  cases h with
  | between p => exact lower_ret himpl hq.symm
  | @before op k q g hd =>
    cases q with
    | ret r => cases hd
    | call c kq => cases hq
  | @after op k q g r hd =>
    cases q with
    | ret r' =>
      cases hd
      exact lower_ret himpl hq.symm
    | call c kq => cases hq

/-- What a lowered program does next is within an implementation. -/
theorem Stage.active (himpl : ∀ op, Delivers (C op) (impl op) g0 none) {c : COp} {k : CRes c → Prog COp CRes Unit}
    (h : Stage impl C g0 p (call c k) g) :
    ∃ op ka kq g1 result, (g1 = g ∨ g1 = g0) ∧ Delivers (C op) (call c kq) g1 result ∧
      (k = fun x => (kq x).bind fun r => (ka r).lower impl) ∧ p = result.elim (call op ka) ka := by
  generalize hq : (call c k : Prog COp CRes Unit) = q at h
  cases h with
  | between p =>
    obtain ⟨op, ka, kq, rfl, hd, hk⟩ := lower_call himpl hq.symm
    exact ⟨op, ka, kq, g0, none, Or.inr rfl, hd, hk, rfl⟩
  | @before op ka q g hd =>
    cases q with
    | ret r => cases hd
    | call c' kq =>
      cases hq
      exact ⟨op, ka, kq, g, none, Or.inl rfl, hd, rfl, rfl⟩
  | @after op ka q g r hd =>
    cases q with
    | ret r' =>
      -- the implementation has returned: the next operation of the program begins
      cases hd
      obtain ⟨op', ka', kq, hp, hd', hk⟩ := lower_call himpl hq.symm
      exact ⟨op', ka', kq, g0, none, Or.inr rfl, hd', hk, hp⟩
    | call c' kq =>
      cases hq
      exact ⟨op, ka, kq, g, some r, Or.inl rfl, hd, rfl, rfl⟩

theorem Delivers.stage {op : Op} {q : Prog COp CRes (Res op)} {result : Option (Res op)} (h : Delivers (C op) q g result)
    (ka : Res op → Prog Op Res Unit) :
    Stage impl C g0 (result.elim (call op ka) ka) (q.bind fun r => (ka r).lower impl) g := by
  cases result with
  | none => exact .before ka h
  | some r => exact .after ka h

end Prog

/-! ## Runs -/

section
variable {Op COp : Type} {Res : Op → Type} {CRes : COp → Type} {W CW G GA : Type}
variable {exec : (op : Op) → W → Res op × W} {cexec : (c : COp) → CW → CRes c × CW}
variable {impl : (op : Op) → Prog COp CRes (Res op)} {C : (op : Op) → Prog.Contract COp CRes G (Res op)} {g0 : G}
variable {R : W → CW → (Nat → G) → Prop} {Allowed : CW → COp → Prop} {Fits : W → Op → Prop}
variable {P : Prog.Protocol Op Res GA} {ga0 : GA} {Start : Prog Op Res Unit → Prop} {w0 : W} {cw0 : CW}

theorem Reach.lowered (himpl : ∀ op, Prog.Delivers (C op) (impl op) g0 none) (h0 : R w0 cw0 fun _ => g0)
    (hidle : ∀ w cw gs i, R w cw gs → R w cw (Function.update gs i g0))
    (hstep : ∀ op w cw gs i result c, R w cw gs → (C op).ok (gs i) result c → Allowed cw c →
      ∃ g' result', (C op).moves (gs i) result c (cexec c cw).1 g' result' ∧
        (result' = result ∧ R w (cexec c cw).2 (Function.update gs i g') ∨
          result = none ∧ result' = some (exec op w).1 ∧ Fits w op ∧
            R (exec op w).2 (cexec c cw).2 (Function.update gs i g')))
    {c : Config COp CRes CW Unit}
    (h : Reach cexec (.only fun _ => True) () (fun p => ∃ q, Start q ∧ p = q.lower impl) (fun c _ op => Allowed c.world op) cw0 c) :
    ∃ a gs, Reach exec P ga0 Start (fun a _ op => Fits a.world op) w0 a ∧ R a.world c.world gs ∧
      ∀ i, Prog.Stage impl C g0 (a.pool i).2 (c.pool i).2 (gs i) := by
  -- program `i` of both configurations is replaced, and its ghost state
  have hset : ∀ (a : Config Op Res W GA) (c : Config COp CRes CW Unit) (gs : Nat → G) i ga p q g,
      Prog.Stage impl C g0 p q g → (∀ j, Prog.Stage impl C g0 (a.pool j).2 (c.pool j).2 (gs j)) →
        ∀ j, Prog.Stage impl C g0 ((a.set i ga p).pool j).2 ((c.set i () q).pool j).2 (Function.update gs i g j) := by
    intro a c gs i ga p q g hp hall j
    rw [a.set_pool, c.set_pool]
    by_cases hj : j = i
    · subst hj
      simpa using hp
    · simpa [hj] using hall j
  induction h with
  | init => exact ⟨_, _, .init, h0, fun _ => .between (.ret ())⟩
  | @start c i p _ hk hp ih =>
    obtain ⟨a, gs, ha, hr, hall⟩ := ih
    obtain ⟨q, hq, rfl⟩ := hp
    have hended : (a.pool i).2 = .ret () := Prog.Stage.finished himpl (hk ▸ hall i)
    exact ⟨_, _, .start i q ha hended hq, hidle _ _ _ i hr, hset a c gs i ga0 q _ g0 (.between q) hall⟩
  | @drop c i _ ih =>
    obtain ⟨a, gs, ha, hr, hall⟩ := ih
    exact ⟨_, _, .drop i ha, hidle _ _ _ i hr, hset a c gs i ga0 _ _ g0 (.between (.ret ())) hall⟩
  | @step c i cop k _ hk hg ih =>
    obtain ⟨a, gs, ha, hr, hall⟩ := ih
    obtain ⟨op, ka, kq, g1, result, hg1, hd, rfl, hpa⟩ := Prog.Stage.active himpl (hk ▸ hall i)
    have hr1 : R a.world c.world (Function.update gs i g1) := by
      rcases hg1 with rfl | rfl
      · rwa [Function.update_eq_self]
      · exact hidle _ _ _ i hr
    have hok : (C op).ok (Function.update gs i g1 i) result cop := by
      rw [Function.update_self]
      exact hd.1
    obtain ⟨g', result', hmoves, hcase⟩ := hstep op _ _ _ i result cop hr1 hok hg
    rw [Function.update_self] at hmoves
    rw [Function.update_idem] at hcase
    have hnext := hd.2 _ _ _ hmoves
    rcases hcase with ⟨rfl, hr'⟩ | ⟨rfl, rfl, hfit, hr'⟩
    · -- a step of the implementation alone
      refine ⟨a, _, ha, hr', fun j => ?_⟩
      have hstage := hset a c gs i (a.pool i).1 _ _ g' (hnext.stage ka) hall j
      have hsame : a.set i (a.pool i).1 (result'.elim (.call op ka) ka) = a := by
        rw [← hpa]
        unfold Config.set
        rw [Prod.mk.eta, Function.update_eq_self]
      rw [hsame] at hstage
      exact hstage
    · -- the step at which the operation takes effect
      exact ⟨_, _, .step i op ka ha hpa hfit, hr', fun j => hset a c gs i _ _ _ g' (.after ka hnext) hall j⟩

end

end S3lite
