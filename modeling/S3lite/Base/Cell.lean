/-
  S3lite.Base.Cell — programs that read a shared cell, swapped whole, next to the world
  they act on.

  A load takes the cell's value; a store replaces it. A program's ghost state is what it
  has loaded, and its label says whether a load is left in it after so many (`loading`). It
  sees one value if all its loads agree (`Agree`).

  - `Reach.agree`: so it is for every program, in every run whose stores spare them: what is
    at work has loaded the value stored, or has no load left (`Spares`).
  - `Reach.resolved`: a program that sees one value is what it would be without the cell
    (`resolve`).
-/
import S3lite.Base.Prog

namespace S3lite

inductive CellOp (Op S : Type) where
  | load
  | store (s : S)
  | plain (op : Op)

@[reducible] def CellOp.Res {Op S : Type} (Res : Op → Type) : CellOp Op S → Type
  | load => S
  | store _ => Unit
  | plain op => Res op

variable {Op S W α β : Type} {Res : Op → Type}

def cellExec (exec : (op : Op) → W → Res op × W) : (op : CellOp Op S) → W × S → op.Res Res × (W × S)
  | .load, w => (w.2, w)
  | .store s, w => ((), (w.1, s))
  | .plain op, w => ((exec op w.1).1, ((exec op w.1).2, w.2))

namespace Prog

/-- A program that leaves the cell alone. -/
def plain : Prog Op Res α → Prog (CellOp Op S) (CellOp.Res Res) α
  | ret a => ret a
  | call op k => call (.plain op) fun r => (k r).plain

/-- The program where every load takes the value `s`, and nothing else loads or stores. -/
def resolve (s : S) : Prog (CellOp Op S) (CellOp.Res Res) α → Prog Op Res α
  | ret a => ret a
  | call .load k => (k s).resolve s
  | call (.store _) k => (k ()).resolve s
  | call (.plain op) k => call op fun r => (k r).resolve s

@[simp] theorem resolve_plain (s : S) (p : Prog Op Res α) :
    (p.plain : Prog (CellOp Op S) (CellOp.Res Res) α).resolve s = p := by
  induction p with
  | ret a => rfl
  | call op k ih => exact congrArg (call op) (funext ih)

@[simp] theorem resolve_bind (s : S) (p : Prog (CellOp Op S) (CellOp.Res Res) α) (f : α → Prog (CellOp Op S) (CellOp.Res Res) β) :
    (p.bind f).resolve s = (p.resolve s).bind fun a => (f a).resolve s := by
  induction p with
  | ret a => rfl
  | call op k ih =>
    cases op with
    | load => exact ih s
    | store _ => exact ih ()
    | plain op => exact congrArg (call op) (funext ih)

end Prog

/-! ## What a program has loaded -/

/-- Programs that load only while one is left, by what they have loaded, the newest first. -/
def loading (left : List S → Prop) : Prog.Protocol (CellOp Op S) (CellOp.Res Res) (List S) where
  ok := fun g op => match op with
    | .load => left g
    | .store _ | .plain _ => True
  res := fun _ _ _ => True
  next := fun g op r => match op, r with
    | .load, s => s :: g
    | .store _, _ => g
    | .plain _, _ => g

theorem follows_plain {left : List S → Prop} (p : Prog Op Res α) {Q : α → List S → Prop} {g : List S} (hq : ∀ a, Q a g) :
    (p.plain : Prog (CellOp Op S) (CellOp.Res Res) α).Follows (loading left) Q g := by
  induction p with
  | ret a => exact hq a
  | call op k ih => exact ⟨trivial, fun r _ => ih r⟩

def Agree (g : List S) : Prop := ∀ s ∈ g, ∀ t ∈ g, s = t

instance instDecidableAgree [DecidableEq S] (g : List S) : Decidable (Agree g) :=
  inferInstanceAs (Decidable (∀ s ∈ g, ∀ t ∈ g, s = t))

theorem agree_of_all {g : List S} {u : S} (h : ∀ s ∈ g, s = u) : Agree g :=
  fun s hs t ht => (h s hs).trans (h t ht).symm

/-! ## Runs -/

section
variable {L : Type}

abbrev CellConfig (L Op : Type) (Res : Op → Type) (W S : Type) :=
  Config (L × CellOp Op S) (fun l => l.2.Res Res) (W × S) (List S)

/-- The configurations that the programs reach, each labelled with what it is. -/
abbrev Loading (exec : (op : Op) → W → Res op × W) (program : L → Prog (CellOp Op S) (CellOp.Res Res) Unit)
    (left : L → List S → Prop) (Guard : CellConfig L Op Res W S → Nat → L × CellOp Op S → Prop) (w0 : W × S) :
    CellConfig L Op Res W S → Prop :=
  Reach (fun l => cellExec exec l.2) (.tagged fun l => loading (left l)) [] (fun p => ∃ l, p = (program l).tag l) Guard w0

/-- A store finds no program at work that has loaded another value and has a load left. -/
def Spares (left : L → List S → Prop) (c : CellConfig L Op Res W S) (_ : Nat) (l : L × CellOp Op S) : Prop :=
  ∀ s, l.2 = .store s → ∀ j next, (c.pool j).2.pending = some next → (∀ t ∈ c.ghosts j, t = s) ∨ ¬ left next.1 (c.ghosts j)

variable {exec : (op : Op) → W → Res op × W} {program : L → Prog (CellOp Op S) (CellOp.Res Res) Unit}
variable {left : L → List S → Prop} {Guard : CellConfig L Op Res W S → Nat → L × CellOp Op S → Prop}
variable {w0 : W × S} {c : CellConfig L Op Res W S}

theorem Reach.loads (hprogram : ∀ l, (program l).Follows (loading (left l)) (fun _ _ => True) [])
    (h : Loading exec program left Guard w0 c) (j : Nat) :
    (c.pool j).2.Follows (.tagged fun l => loading (left l)) (fun _ _ => True) (c.ghosts j) := by
  refine (Reach.sound (I := fun _ _ => True) trivial (fun _ _ _ _ => trivial) (fun _ _ _ _ _ _ => ⟨trivial, trivial⟩)
    (fun p hp => ?_) h).2 j
  obtain ⟨l, rfl⟩ := hp
  rw [Prog.follows_tag]
  exact hprogram l

/-- The loads of a program agree, and while one is left they are of the cell's value. -/
structure SeesOne (left : L → List S → Prop) (cell : S) (x : List S × Prog (L × CellOp Op S) (fun l => l.2.Res Res) Unit) :
    Prop where
  agree : Agree x.1
  current : ∀ next, x.2.pending = some next → left next.1 x.1 → ∀ s ∈ x.1, s = cell

theorem SeesOne.start (cell : S) (p : Prog (L × CellOp Op S) (fun l => l.2.Res Res) Unit) : SeesOne left cell ([], p) :=
  ⟨fun _ h => absurd h List.not_mem_nil, fun _ _ _ _ h => absurd h List.not_mem_nil⟩

/-- The step of the program itself. -/
theorem SeesOne.step {i : Nat} {l : L × CellOp Op S} {k : l.2.Res Res → Prog (L × CellOp Op S) (fun l => l.2.Res Res) Unit}
    (hk : (c.pool i).2 = .call l k) (hf : (c.pool i).2.Follows (.tagged fun l => loading (left l)) (fun _ _ => True) (c.ghosts i))
    (hof : (c.pool i).2.OfLabel l.1) (hg : Spares left c i l) (h : SeesOne left c.world.2 (c.pool i)) :
    SeesOne left (cellExec exec l.2 c.world).2.2
      ((loading (left l.1)).next (c.ghosts i) l.2 (cellExec exec l.2 c.world).1, k (cellExec exec l.2 c.world).1) := by
  rw [hk] at hf hof
  have hpending : (c.pool i).2.pending = some l := by rw [hk]; rfl
  have hlabel : ∀ next, (k (cellExec exec l.2 c.world).1).pending = some next → next.1 = l.1 :=
    fun next hnext => Prog.OfLabel.pending (hof.2 _ trivial) hnext
  obtain ⟨label, op⟩ := l
  cases op with
  | load =>
    -- it could load, so all it has loaded is the cell's value
    have hall : ∀ s ∈ c.world.2 :: c.ghosts i, s = c.world.2 := by
      intro s hs
      rcases List.mem_cons.mp hs with hs | hs
      · exact hs
      · exact h.current _ hpending hf.1 s hs
    exact ⟨agree_of_all hall, fun _ _ _ => hall⟩
  | store s =>
    refine ⟨h.agree, fun next hnext hleft => ?_⟩
    rw [hlabel next hnext] at hleft
    rcases hg s rfl i _ hpending with hs | hn
    · exact hs
    · exact absurd hleft hn
  | plain op =>
    refine ⟨h.agree, fun next hnext hleft => ?_⟩
    rw [hlabel next hnext] at hleft
    exact h.current _ hpending hleft

/-- The step of another program. -/
theorem SeesOne.other {i j : Nat} {l : L × CellOp Op S} (hg : Spares left c i l) (h : SeesOne left c.world.2 (c.pool j)) :
    SeesOne left (cellExec exec l.2 c.world).2.2 (c.pool j) := by
  obtain ⟨label, op⟩ := l
  cases op with
  | load => exact h
  | plain op => exact h
  | store s =>
    refine ⟨h.agree, fun next hnext hleft => ?_⟩
    rcases hg s rfl j next hnext with hs | hn
    · exact hs
    · exact absurd hleft hn

theorem Reach.ofLabel (h : Loading exec program left Guard w0 c) {j : Nat} {l : L × CellOp Op S}
    (hp : (c.pool j).2.pending = some l) : (c.pool j).2.OfLabel l.1 := by
  refine h.pool (K := fun p => ∀ l, p.pending = some l → p.OfLabel l.1) (fun _ h => by cases h) (fun op k r hk => ?_)
    (fun p hp => ?_) j l hp
  · intro l hl
    have hof := (hk op rfl).2 r trivial
    rw [Prog.OfLabel.pending hof hl]
    exact hof
  · obtain ⟨l, rfl⟩ := hp
    intro l' hl'
    rw [Prog.OfLabel.pending (Prog.ofLabel_tag _ _) hl']
    exact Prog.ofLabel_tag _ _

theorem Reach.seesOne (hprogram : ∀ l, (program l).Follows (loading (left l)) (fun _ _ => True) [])
    (h : Loading exec program left (Spares left) w0 c) : ∀ j, SeesOne left c.world.2 (c.pool j) := by
  have hset : ∀ {e : CellConfig L Op Res W S} (i : Nat) (p : Prog (L × CellOp Op S) (fun l => l.2.Res Res) Unit),
      (∀ j, SeesOne left e.world.2 (e.pool j)) → ∀ j, SeesOne left e.world.2 ((e.set i [] p).pool j) := by
    intro e i p ih j
    rw [e.set_pool]
    split
    · exact .start _ p
    · exact ih j
  induction h with
  | init => exact fun _ => .start _ _
  | start i p _ _ _ ih => exact hset i p ih
  | drop i _ ih => exact hset i _ ih
  | @step e i l k hreach hk hg ih =>
    intro j
    have hpool : (e.perform (fun l => cellExec exec l.2) (.tagged fun l => loading (left l)) i l k).pool j =
        if j = i then ((loading (left l.1)).next (e.ghosts i) l.2 (cellExec exec l.2 e.world).1, k (cellExec exec l.2 e.world).1)
        else e.pool j := e.set_pool ..
    rw [hpool]
    split
    · exact SeesOne.step hk (hreach.loads hprogram i) (Reach.ofLabel hreach (by rw [hk]; rfl)) hg (ih i)
    · exact SeesOne.other hg (ih j)

/-- In a run whose stores spare the programs every program sees one value. -/
theorem Reach.agree (hprogram : ∀ l, (program l).Follows (loading (left l)) (fun _ _ => True) [])
    (h : Loading exec program left (Spares left) w0 c) (j : Nat) : Agree (c.ghosts j) := (h.seesOne hprogram j).agree

/-- A program that has loaded one value only is what is left of it where every load takes that
    value. -/
theorem Reach.resolved (h : Loading exec program left Guard w0 c) : ∀ {j : Nat} {l : L × CellOp Op S},
    (c.pool j).2.pending = some l → ∀ {s : S}, (∀ t ∈ c.ghosts j, t = s) →
      ((program l.1).resolve s).LeftOf ((c.pool j).2.untag.resolve s) := by
  have hother : ∀ {e : CellConfig L Op Res W S} {i j : Nat} (g : List S) (p : Prog (L × CellOp Op S) (fun l => l.2.Res Res) Unit),
      j ≠ i → (e.set i g p).pool j = e.pool j := by
    intro e i j g p hj
    rw [e.set_pool, if_neg hj]
  induction h with
  | init => exact fun hp => by cases hp
  | @start e i p _ _ hp ih =>
    intro j l hl s hs
    by_cases hj : j = i
    · subst hj
      obtain ⟨l', rfl⟩ := hp
      rw [e.set_pool, if_pos rfl] at hl ⊢
      rw [Prog.OfLabel.pending (Prog.ofLabel_tag _ _) hl, Prog.untag_tag]
      exact .all
    · unfold Config.ghosts at hs
      rw [hother _ _ hj] at hl hs ⊢
      exact ih hl hs
  | @drop e i _ ih =>
    intro j l hl s hs
    by_cases hj : j = i
    · subst hj
      rw [e.set_pool, if_pos rfl] at hl
      cases hl
    · unfold Config.ghosts at hs
      rw [hother _ _ hj] at hl hs ⊢
      exact ih hl hs
  | @step e i l k hreach hk _ ih =>
    intro j next hnext s hs
    by_cases hj : j = i
    · subst hj
      have hpool : (e.perform (fun l => cellExec exec l.2) (.tagged fun l => loading (left l)) j l k).pool j =
          ((loading (left l.1)).next (e.ghosts j) l.2 (cellExec exec l.2 e.world).1, k (cellExec exec l.2 e.world).1) := by
        refine (e.set_pool ..).trans ?_
        rw [if_pos rfl]
        rfl
      unfold Config.ghosts at hs
      rw [hpool] at hnext hs ⊢
      have hpending : (e.pool j).2.pending = some l := by rw [hk]; rfl
      have hof := Reach.ofLabel hreach hpending
      rw [hk] at hof
      rw [Prog.OfLabel.pending (hof.2 _ trivial) hnext]
      have hbefore : (∀ t ∈ e.ghosts j, t = s) → ((program l.1).resolve s).LeftOf ((Prog.call l k).untag.resolve s) := by
        intro hall
        rw [← hk]
        exact ih hpending hall
      obtain ⟨label, op⟩ := l
      cases op with
      | load =>
        have hcell : e.world.2 = s := hs _ (List.mem_cons_self ..)
        have hleft := hbefore fun t ht => hs t (List.mem_cons_of_mem _ ht)
        show Prog.LeftOf _ ((k e.world.2).untag.resolve s)
        rw [hcell]
        exact hleft
      | store s' => exact hbefore hs
      | plain op => exact .next _ (hbefore hs)
    · have hsame : (e.perform (fun l => cellExec exec l.2) (.tagged fun l => loading (left l)) i l k).pool j = e.pool j := hother _ _ hj
      unfold Config.ghosts at hs
      rw [hsame] at hnext hs ⊢
      exact ih hnext hs

end

end S3lite
