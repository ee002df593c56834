/-
  S3lite.Base.Prog — programs over atomic operations, run alone or interleaved.

  A program (`Prog`) returns a value or performs one operation and goes on with its
  result. An operation acts on a shared world in one step (`exec`).
  - Alone (`run`), a program's operations happen one after the other.
  - Interleaved (`Reach`), a pool of programs shares the world: any program may take the
    next step, be started in a finished program's place, or be dropped at any point. A
    guard may rule steps out: a claim about the runs that meet a condition is a claim
    about `Reach` under that guard.

  Reasoning. A `Protocol` says which operations a program may perform (`ok`), what it may
  assume of their results (`res`), and the ghost state it keeps of what it did (`next`).
  `Follows` checks one program against it, on its own; `follows_bind` composes.
  - `Follows.prod`: a program that follows two protocols follows them at once.
  - `follows_tag`: a protocol for programs whose operations are labelled; `OfLabel` for those
    of one label.
  - `Follows.run`: an invariant of world and ghost state kept by every allowed operation
    holds after a run of a program that follows the protocol; `Follows.run_meets` for the
    runs whose operations meet a condition, and `Follows.meets` for what they meet by the
    invariant besides.
  - `Follows.agree`: a run alone ends alike from two worlds that answer it alike, and
    `Follows.mirror` where they stay related too.
  - `Reach.sound`: an invariant of the world and of every ghost state kept by every
    allowed operation holds in every configuration reached by programs that follow the
    protocol, and each of them still follows it.
-/
import Mathlib

namespace S3lite

inductive Prog (Op : Type) (Res : Op → Type) (α : Type) where
  | ret (a : α)
  | call (op : Op) (k : Res op → Prog Op Res α)

namespace Prog

variable {Op : Type} {Res : Op → Type} {W G α β : Type}

def bind : Prog Op Res α → (α → Prog Op Res β) → Prog Op Res β
  | ret a, f => f a
  | call op k, f => call op fun r => (k r).bind f

instance instMonadProg : Monad (Prog Op Res) where
  pure := ret
  bind := bind

/-- Perform one operation and return its result. -/
def perform (op : Op) : Prog Op Res (Res op) := call op ret

/-- The operation a program is about to perform. -/
def pending : Prog Op Res α → Option Op
  | ret _ => none
  | call op _ => some op

theorem exists_call {p : Prog Op Res α} {op : Op} (h : p.pending = some op) : ∃ k, p = call op k := by
  cases p with
  | ret a => cases h
  | call op k =>
    cases h
    exact ⟨k, rfl⟩

theorem bind_assoc {γ : Type} (p : Prog Op Res α) (f : α → Prog Op Res β) (g : β → Prog Op Res γ) :
    (p.bind f).bind g = p.bind fun a => (f a).bind g := by
  induction p with
  | ret a => rfl
  | call op k ih => exact congrArg (call op) (funext ih)

theorem bind_ret (p : Prog Op Res α) : p.bind ret = p := by
  induction p with
  | ret a => rfl
  | call op k ih => exact congrArg (call op) (funext ih)

/-- What is left of a program when some of its operations are done. -/
inductive LeftOf (p : Prog Op Res α) : Prog Op Res α → Prop
  | all : LeftOf p p
  | next {op : Op} {k : Res op → Prog Op Res α} (r : Res op) : LeftOf p (call op k) → LeftOf p (k r)

/-! ## Alone -/

section
variable (exec : (op : Op) → W → Res op × W)

def run : Prog Op Res α → W → α × W
  | ret a, w => (a, w)
  | call op k, w => run (k (exec op w).1) (exec op w).2

theorem run_bind (p : Prog Op Res α) (f : α → Prog Op Res β) (w : W) :
    run exec (p.bind f) w = run exec (f (run exec p w).1) (run exec p w).2 := by
  induction p generalizing w with
  | ret a => rfl
  | call op k ih => exact ih _ _

@[simp] theorem run_ret (a : α) (w : W) : run exec (ret a : Prog Op Res α) w = (a, w) := rfl

@[simp] theorem run_perform (op : Op) (w : W) : run exec (perform op) w = exec op w := rfl

end

/-! ## Protocols -/

structure Protocol (Op : Type) (Res : Op → Type) (G : Type) where
  ok : G → Op → Prop
  res : G → (op : Op) → Res op → Prop
  next : G → (op : Op) → Res op → G

/-- The program keeps to the protocol from ghost state `g`, and ends in `Q`. -/
def Follows (P : Protocol Op Res G) : Prog Op Res α → (α → G → Prop) → G → Prop
  | ret a, Q, g => Q a g
  | call op k, Q, g => P.ok g op ∧ ∀ r, P.res g op r → Follows P (k r) Q (P.next g op r)

variable {P : Protocol Op Res G}

@[simp] theorem follows_ret {a : α} {Q : α → G → Prop} {g : G} : Follows P (ret a) Q g ↔ Q a g := Iff.rfl

theorem Follows.mono {p : Prog Op Res α} {Q Q' : α → G → Prop} {g : G} (h : Follows P p Q g)
    (hq : ∀ a g, Q a g → Q' a g) : Follows P p Q' g := by
  induction p generalizing g with
  | ret a => exact hq a g h
  | call op k ih => exact ⟨h.1, fun r hr => ih r (h.2 r hr)⟩

theorem follows_bind {p : Prog Op Res α} {f : α → Prog Op Res β} {Q : β → G → Prop} {g : G} :
    Follows P (p.bind f) Q g ↔ Follows P p (fun a g => Follows P (f a) Q g) g := by
  induction p generalizing g with
  | ret a => exact Iff.rfl
  | call op k ih => exact and_congr_right fun _ => forall_congr' fun r => imp_congr_right fun _ => ih r

@[simp] theorem follows_perform {op : Op} {Q : Res op → G → Prop} {g : G} :
    Follows P (perform op) Q g ↔ P.ok g op ∧ ∀ r, P.res g op r → Q r (P.next g op r) := Iff.rfl

/-! ## Two protocols -/

section
variable {G' : Type} {P' : Protocol Op Res G'}

def Protocol.prod (P : Protocol Op Res G) (P' : Protocol Op Res G') : Protocol Op Res (G × G') :=
  ⟨fun g op => P.ok g.1 op ∧ P'.ok g.2 op, fun g op r => P.res g.1 op r ∧ P'.res g.2 op r,
    fun g op r => (P.next g.1 op r, P'.next g.2 op r)⟩

/-- Each may be checked on its own. -/
theorem Follows.prod {p : Prog Op Res α} {Q : α → G → Prop} {Q' : α → G' → Prop} {g : G} {g' : G'} (h : Follows P p Q g)
    (h' : Follows P' p Q' g') : Follows (P.prod P') p (fun a g => Q a g.1 ∧ Q' a g.2) (g, g') := by
  induction p generalizing g g' with
  | ret a => exact ⟨h, h'⟩
  | call op k ih => exact ⟨⟨h.1, h'.1⟩, fun r hr => ih r (h.2 r hr.1) (h'.2 r hr.2)⟩

/-- Every program follows a protocol that allows everything. -/
theorem follows_of_ok (hok : ∀ g op, P.ok g op) (p : Prog Op Res α) (g : G) : Follows P p (fun _ _ => True) g := by
  induction p generalizing g with
  | ret a => trivial
  | call op k ih => exact ⟨hok g op, fun r _ => ih r _⟩

end

/-- Operations of one kind only. -/
def Protocol.only (C : Op → Prop) : Protocol Op Res Unit := ⟨fun _ op => C op, fun _ _ _ => True, fun _ _ _ => ()⟩

/-- A program of such operations follows every protocol that allows them in the ghost states
    they lead to. -/
theorem Follows.of_only_keeping {C : Op → Prop} {J : G → Prop}
    (hok : ∀ g op, J g → C op → P.ok g op ∧ ∀ r, P.res g op r → J (P.next g op r)) {p : Prog Op Res α} {Q : α → Unit → Prop}
    (h : Follows (Protocol.only C) p Q ()) {g : G} (hj : J g) : Follows P p (fun _ g => J g) g := by
  induction p generalizing g with
  | ret a => exact hj
  | call op k ih =>
    obtain ⟨hok', hnext⟩ := hok g op hj h.1
    exact ⟨hok', fun r hr => ih r (h.2 r trivial) (hnext r hr)⟩

/-- A program of such operations follows every protocol that always allows them. -/
theorem Follows.of_only {C : Op → Prop} (hok : ∀ g op, C op → P.ok g op) {p : Prog Op Res α} {Q : α → Unit → Prop}
    (h : Follows (Protocol.only C) p Q ()) (g : G) : Follows P p (fun _ _ => True) g :=
  h.of_only_keeping (J := fun _ => True) (fun g op _ hc => ⟨hok g op hc, fun _ _ => trivial⟩) trivial

/-! ## Labels -/

section
variable {L : Type}

/-- The program with a label on each of its operations. -/
def tag (l : L) : Prog Op Res α → Prog (L × Op) (fun lo => Res lo.2) α
  | ret a => ret a
  | call op k => call (l, op) fun r => (k r).tag l

def untag : Prog (L × Op) (fun lo => Res lo.2) α → Prog Op Res α
  | ret a => ret a
  | call lo k => call lo.2 fun r => (k r).untag

@[simp] theorem untag_tag (l : L) (p : Prog Op Res α) : (p.tag l).untag = p := by
  induction p with
  | ret a => rfl
  | call op k ih => exact congrArg (call op) (funext ih)

/-- A protocol of labelled operations, for the programs of one label. -/
def Protocol.at (P : Protocol (L × Op) (fun lo => Res lo.2) G) (l : L) : Protocol Op Res G :=
  ⟨fun g op => P.ok g (l, op), fun g op r => P.res g (l, op) r, fun g op r => P.next g (l, op) r⟩

/-- A protocol for each label. -/
def Protocol.tagged (P : L → Protocol Op Res G) : Protocol (L × Op) (fun lo => Res lo.2) G :=
  ⟨fun g lo => (P lo.1).ok g lo.2, fun g lo r => (P lo.1).res g lo.2 r, fun g lo r => (P lo.1).next g lo.2 r⟩

theorem follows_tag {P : Protocol (L × Op) (fun lo => Res lo.2) G} {l : L} {p : Prog Op Res α} {Q : α → G → Prop} {g : G} :
    Follows P (p.tag l) Q g ↔ Follows (P.at l) p Q g := by
  induction p generalizing g with
  | ret a => exact Iff.rfl
  | call op k ih => exact and_congr_right fun _ => forall_congr' fun r => imp_congr_right fun _ => ih r

/-- All operations of the program have the label. -/
def OfLabel (l : L) (p : Prog (L × Op) (fun lo => Res lo.2) α) : Prop :=
  p.Follows (Protocol.only fun lo => lo.1 = l) (fun _ _ => True) ()

theorem OfLabel.pending {l : L} {p : Prog (L × Op) (fun lo => Res lo.2) α} (h : p.OfLabel l) {next : L × Op}
    (hp : p.pending = some next) : next.1 = l := by
  obtain ⟨k, rfl⟩ := exists_call hp
  exact h.1

theorem ofLabel_tag (l : L) (p : Prog Op Res α) : (p.tag l).OfLabel l := by
  unfold OfLabel
  rw [follows_tag]
  exact follows_of_ok (fun _ _ => rfl) p ()

end

section
variable {exec : (op : Op) → W → Res op × W}

/-- Every operation of a run alone meets the condition. -/
def Meets (exec : (op : Op) → W → Res op × W) (Fits : W → Op → Prop) : Prog Op Res α → W → Prop
  | ret _, _ => True
  | call op k, w => Fits w op ∧ Meets exec Fits (k (exec op w).1) (exec op w).2

/-- A run alone whose operations meet a condition keeps an invariant that every such operation
    keeps. -/
theorem Follows.run_meets {I : G → W → Prop} {Fits : W → Op → Prop}
    (hstep : ∀ g w op, I g w → P.ok g op → Fits w op →
      P.res g op (exec op w).1 ∧ I (P.next g op (exec op w).1) (exec op w).2)
    {p : Prog Op Res α} {Q : α → G → Prop} {g : G} {w : W} (h : Follows P p Q g) (hm : p.Meets exec Fits w) (hi : I g w) :
    ∃ g', Q (p.run exec w).1 g' ∧ I g' (p.run exec w).2 := by
  induction p generalizing g w with
  | ret a => exact ⟨g, h, hi⟩
  | call op k ih =>
    obtain ⟨hr, hi'⟩ := hstep g w op hi h.1 hm.1
    exact ih _ (h.2 _ hr) hm.2 hi'

theorem Meets.mono {Fits Fits' : W → Op → Prop} (hfits : ∀ w op, Fits w op → Fits' w op) {p : Prog Op Res α} {w : W}
    (h : p.Meets exec Fits w) : p.Meets exec Fits' w := by
  induction p generalizing w with
  | ret a => trivial
  | call op k ih => exact ⟨hfits w op h.1, ih _ h.2⟩

theorem Meets.and {Fits Fits' : W → Op → Prop} {p : Prog Op Res α} {w : W} (h : p.Meets exec Fits w) (h' : p.Meets exec Fits' w) :
    p.Meets exec (fun w op => Fits w op ∧ Fits' w op) w := by
  induction p generalizing w with
  | ret a => trivial
  | call op k ih => exact ⟨⟨h.1, h'.1⟩, ih _ h.2 h'.2⟩

theorem meets_of_forall {Fits : W → Op → Prop} (h : ∀ w op, Fits w op) (p : Prog Op Res α) (w : W) : p.Meets exec Fits w := by
  induction p generalizing w with
  | ret a => trivial
  | call op k ih => exact ⟨h w op, ih _ _⟩

/-- And its operations meet what follows from the invariant. -/
theorem Follows.meets {I : G → W → Prop} {Fits Fits' : W → Op → Prop}
    (hstep : ∀ g w op, I g w → P.ok g op → Fits w op →
      Fits' w op ∧ P.res g op (exec op w).1 ∧ I (P.next g op (exec op w).1) (exec op w).2)
    {p : Prog Op Res α} {Q : α → G → Prop} {g : G} {w : W} (h : Follows P p Q g) (hm : p.Meets exec Fits w) (hi : I g w) :
    p.Meets exec Fits' w ∧ ∃ g', Q (p.run exec w).1 g' ∧ I g' (p.run exec w).2 := by
  induction p generalizing g w with
  | ret a => exact ⟨trivial, g, h, hi⟩
  | call op k ih =>
    obtain ⟨hfits, hr, hi'⟩ := hstep g w op hi h.1 hm.1
    obtain ⟨hrest, hend⟩ := ih _ (h.2 _ hr) hm.2 hi'
    exact ⟨⟨hfits, hrest⟩, hend⟩

/-- A run alone keeps an invariant that every allowed operation keeps. -/
theorem Follows.run {I : G → W → Prop}
    (hstep : ∀ g w op, I g w → P.ok g op →
      P.res g op (exec op w).1 ∧ I (P.next g op (exec op w).1) (exec op w).2)
    {p : Prog Op Res α} {Q : α → G → Prop} {g : G} {w : W} (h : Follows P p Q g) (hi : I g w) :
    ∃ g', Q (p.run exec w).1 g' ∧ I g' (p.run exec w).2 :=
  h.run_meets (fun g w op hi hok _ => hstep g w op hi hok) (meets_of_forall (fun _ _ => trivial) p w) hi

/-- Runs alone from two worlds that every allowed operation answers alike. -/
theorem Follows.agree {R : G → W → W → Prop}
    (hstep : ∀ g w w' op, R g w w' → P.ok g op → (exec op w').1 = (exec op w).1 ∧ P.res g op (exec op w).1 ∧
      R (P.next g op (exec op w).1) (exec op w).2 (exec op w').2)
    {p : Prog Op Res α} {Q : α → G → Prop} {g : G} {w w' : W} (h : Follows P p Q g) (hr : R g w w') :
    (p.run exec w').1 = (p.run exec w).1 := by
  induction p generalizing g w w' with
  | ret a => rfl
  | call op k ih =>
    obtain ⟨hsame, hres, hr'⟩ := hstep g w w' op hr h.1
    show ((k (exec op w').1).run exec (exec op w').2).1 = _
    rw [hsame]
    exact ih _ (h.2 _ hres) hr'

/-- Runs alone from two worlds that answer alike every allowed operation that meets the condition
    in the one: they stay related. -/
theorem Follows.mirror {R : G → W → W → Prop} {Fits : W → Op → Prop}
    (hstep : ∀ g w w' op, R g w w' → P.ok g op → Fits w op → (exec op w').1 = (exec op w).1 ∧ P.res g op (exec op w).1 ∧
      R (P.next g op (exec op w).1) (exec op w).2 (exec op w').2)
    {p : Prog Op Res α} {Q : α → G → Prop} {g : G} {w w' : W} (h : Follows P p Q g) (hm : p.Meets exec Fits w) (hr : R g w w') :
    (p.run exec w').1 = (p.run exec w).1 ∧ ∃ g', R g' (p.run exec w).2 (p.run exec w').2 := by
  induction p generalizing g w w' with
  | ret a => exact ⟨rfl, g, hr⟩
  | call op k ih =>
    obtain ⟨hsame, hres, hr'⟩ := hstep g w w' op hr h.1 hm.1
    show ((k (exec op w').1).run exec (exec op w').2).1 = _ ∧ ∃ g', R g' _ ((k (exec op w').1).run exec (exec op w').2).2
    rw [hsame]
    exact ih _ (h.2 _ hres) hm.2 hr'

end

end Prog

/-! ## Interleaved -/

/-- A shared world and a pool of programs, each with the ghost state of its protocol. -/
structure Config (Op : Type) (Res : Op → Type) (W G : Type) where
  world : W
  pool : Nat → G × Prog Op Res Unit

namespace Config

variable {Op : Type} {Res : Op → Type} {W G : Type}

def ghosts (c : Config Op Res W G) : Nat → G := fun i => (c.pool i).1

/-- Program `i` is `p`, in ghost state `g`. -/
def set (c : Config Op Res W G) (i : Nat) (g : G) (p : Prog Op Res Unit) : Config Op Res W G :=
  { c with pool := Function.update c.pool i (g, p) }

@[simp] theorem set_world (c : Config Op Res W G) (i : Nat) (g : G) (p : Prog Op Res Unit) :
    (c.set i g p).world = c.world := rfl

@[simp] theorem set_ghosts (c : Config Op Res W G) (i : Nat) (g : G) (p : Prog Op Res Unit) :
    (c.set i g p).ghosts = Function.update c.ghosts i g := by
  funext j
  by_cases e : j = i
  · subst e; simp [ghosts, set]
  · simp [ghosts, set, e]

theorem set_pool (c : Config Op Res W G) (i j : Nat) (g : G) (p : Prog Op Res Unit) :
    (c.set i g p).pool j = if j = i then (g, p) else c.pool j := by
  simp [set, Function.update_apply]

end Config

section
variable {Op : Type} {Res : Op → Type} {W G : Type}
variable (exec : (op : Op) → W → Res op × W) (P : Prog.Protocol Op Res G) (g0 : G)
variable (Start : Prog Op Res Unit → Prop) (Guard : Config Op Res W G → Nat → Op → Prop)

/-- Program `i`, about to perform `op`, performs it. -/
def Config.perform (c : Config Op Res W G) (i : Nat) (op : Op) (k : Res op → Prog Op Res Unit) : Config Op Res W G :=
  { (c.set i (P.next (c.ghosts i) op (exec op c.world).1) (k (exec op c.world).1)) with world := (exec op c.world).2 }

/-- The configurations reached from world `w0` with every step meeting the guard. -/
inductive Reach (w0 : W) : Config Op Res W G → Prop
  | init : Reach w0 ⟨w0, fun _ => (g0, .ret ())⟩
  | start {c : Config Op Res W G} (i : Nat) (p : Prog Op Res Unit) : Reach w0 c → (c.pool i).2 = .ret () → Start p →
      Reach w0 (c.set i g0 p)
  | step {c : Config Op Res W G} (i : Nat) (op : Op) (k : Res op → Prog Op Res Unit) : Reach w0 c →
      (c.pool i).2 = .call op k → Guard c i op → Reach w0 (c.perform exec P i op k)
  | drop {c : Config Op Res W G} (i : Nat) : Reach w0 c → Reach w0 (c.set i g0 (.ret ()))

variable {exec P g0 Start Guard}

/-- More may be started, and more steps are let through. -/
theorem Reach.mono {Start' : Prog Op Res Unit → Prop} {Guard' : Config Op Res W G → Nat → Op → Prop} {w0 : W}
    (hstart : ∀ p, Start p → Start' p) (hguard : ∀ c i op, Guard c i op → Guard' c i op) {c : Config Op Res W G}
    (h : Reach exec P g0 Start Guard w0 c) : Reach exec P g0 Start' Guard' w0 c := by
  induction h with
  | init => exact .init
  | start i p _ hk hp ih => exact .start i p ih hk (hstart p hp)
  | step i op k _ hk hg ih => exact .step i op k ih hk (hguard _ _ _ hg)
  | drop i _ ih => exact .drop i ih

/-- Of the protocol, only the ghost states it keeps matter. -/
theorem Reach.of_next {P' : Prog.Protocol Op Res G} (hnext : ∀ g op r, P'.next g op r = P.next g op r) {w0 : W}
    {c : Config Op Res W G} (h : Reach exec P g0 Start Guard w0 c) : Reach exec P' g0 Start Guard w0 c := by
  induction h with
  | init => exact .init
  | start i p _ hk hp ih => exact .start i p ih hk hp
  | @step c i op k _ hk hg ih =>
    have e : c.perform exec P i op k = c.perform exec P' i op k := by
      unfold Config.perform
      rw [hnext]
    exact e ▸ .step i op k ih hk hg
  | drop i _ ih => exact .drop i ih

/-- What every operation keeps of the world, whatever the programs do. -/
theorem Reach.world {I : W → Prop} {w0 : W} (h0 : I w0) (hstep : ∀ op w, I w → I (exec op w).2)
    {c : Config Op Res W G} (h : Reach exec P g0 Start Guard w0 c) : I c.world := by
  induction h with
  | init => exact h0
  | start _ _ _ _ _ ih => exact ih
  | step _ op _ _ _ _ ih => exact hstep op _ ih
  | drop _ _ ih => exact ih

/-- Every configuration reached by programs that follow the protocol satisfies an
    invariant that every allowed and guarded operation keeps, and every program in it
    still follows the protocol. -/
theorem Reach.sound {I : W → (Nat → G) → Prop} {w0 : W} (h0 : I w0 fun _ => g0)
    (hidle : ∀ w gs i, I w gs → I w (Function.update gs i g0))
    (hstep : ∀ (c : Config Op Res W G) i op, I c.world c.ghosts → P.ok (c.ghosts i) op → Guard c i op →
      P.res (c.ghosts i) op (exec op c.world).1 ∧
        I (exec op c.world).2 (Function.update c.ghosts i (P.next (c.ghosts i) op (exec op c.world).1)))
    (hstart : ∀ p, Start p → p.Follows P (fun _ _ => True) g0) {c : Config Op Res W G}
    (h : Reach exec P g0 Start Guard w0 c) :
    I c.world c.ghosts ∧ ∀ i, (c.pool i).2.Follows P (fun _ _ => True) (c.ghosts i) := by
  have hset : ∀ (c : Config Op Res W G) i g p, p.Follows P (fun _ _ => True) g →
      (∀ j, (c.pool j).2.Follows P (fun _ _ => True) (c.ghosts j)) →
      ∀ j, ((c.set i g p).pool j).2.Follows P (fun _ _ => True) ((c.set i g p).pool j).1 := by
    intro c i g p hp hc j
    rw [c.set_pool]
    split
    · exact hp
    · exact hc j
  induction h with
  | init => exact ⟨h0, fun _ => trivial⟩
  | @start c i p _ _ hp ih =>
    refine ⟨?_, hset c i g0 p (hstart p hp) ih.2⟩
    rw [c.set_ghosts]
    exact hidle _ _ i ih.1
  | @step c i op k _ hk hg ih =>
    have hf := ih.2 i
    rw [hk] at hf
    obtain ⟨hres, hi⟩ := hstep c i op ih.1 hf.1 hg
    refine ⟨?_, hset c i _ _ (hf.2 _ hres) ih.2⟩
    have e := c.set_ghosts i (P.next (c.ghosts i) op (exec op c.world).1) (k (exec op c.world).1)
    exact (congrArg (I _) e).mpr hi
  | @drop c i _ ih =>
    refine ⟨?_, hset c i g0 _ trivial ih.2⟩
    rw [c.set_ghosts]
    exact hidle _ _ i ih.1

end

/-! ## The programs of a run -/

section
variable {Op : Type} {Res : Op → Type} {W G : Type}
variable {exec : (op : Op) → W → Res op × W} {P : Prog.Protocol Op Res G} {g0 : G}
variable {Start : Prog Op Res Unit → Prop} {Guard : Config Op Res W G → Nat → Op → Prop}

/-- What holds of the programs that may be started, and of what is left of a program after
    each result, holds of the whole pool. -/
theorem Reach.pool {K : Prog Op Res Unit → Prop} (hret : K (.ret ())) (hcall : ∀ op k r, K (.call op k) → K (k r))
    (hstart : ∀ p, Start p → K p) {w0 : W} {c : Config Op Res W G} (h : Reach exec P g0 Start Guard w0 c) (i : Nat) :
    K (c.pool i).2 := by
  have hset : ∀ {c : Config Op Res W G} (j : Nat) (g : G) {p : Prog Op Res Unit}, K p → (∀ i, K (c.pool i).2) →
      ∀ i, K ((c.set j g p).pool i).2 := by
    intro c j g p hp hc i
    rw [c.set_pool]
    split
    · exact hp
    · exact hc i
  revert i
  induction h with
  | init => exact fun _ => hret
  | start j p _ _ hp ih => exact hset j g0 (hstart p hp) ih
  | drop j _ ih => exact hset j g0 hret ih
  | @step c j op k _ hk _ ih =>
    have hj := ih j
    rw [hk] at hj
    exact hset j _ (hcall op k _ hj) ih

end

/-! ## Other ghost states -/

section
variable {Op : Type} {Res : Op → Type} {W G G' : Type}
variable {exec : (op : Op) → W → Res op × W} {P : Prog.Protocol Op Res G} {g0 : G}
variable {Start : Prog Op Res Unit → Prop} {Guard : Config Op Res W G → Nat → Op → Prop}

/-- The same world and programs, with other ghost states. -/
structure Config.SameRun (c : Config Op Res W G) (c' : Config Op Res W G') : Prop where
  world : c'.world = c.world
  programs : ∀ i, (c'.pool i).2 = (c.pool i).2

theorem Config.SameRun.set {c : Config Op Res W G} {c' : Config Op Res W G'} (h : c.SameRun c') (i : Nat) (g : G) (g' : G')
    (p : Prog Op Res Unit) : (c.set i g p).SameRun (c'.set i g' p) := by
  refine ⟨h.world, fun j => ?_⟩
  rw [c.set_pool, c'.set_pool]
  split
  · rfl
  · exact h.programs j

/-- A run can be followed with the ghost states of another protocol. -/
theorem Reach.reghost {P' : Prog.Protocol Op Res G'} {g0' : G'} {Guard' : Config Op Res W G' → Nat → Op → Prop}
    (hguard : ∀ (c : Config Op Res W G) (c' : Config Op Res W G') i op, c.SameRun c' → Guard c i op → Guard' c' i op)
    {w0 : W} {c : Config Op Res W G} (h : Reach exec P g0 Start Guard w0 c) :
    ∃ c', Reach exec P' g0' Start Guard' w0 c' ∧ c.SameRun c' := by
  induction h with
  | init => exact ⟨_, .init, rfl, fun _ => rfl⟩
  | start i p _ hk hp ih =>
    obtain ⟨c', hc', hs⟩ := ih
    exact ⟨_, .start i p hc' ((hs.programs i).trans hk) hp, hs.set i g0 g0' p⟩
  | drop i _ ih =>
    obtain ⟨c', hc', hs⟩ := ih
    exact ⟨_, .drop i hc', hs.set i g0 g0' _⟩
  | @step c i op k _ hk hg ih =>
    obtain ⟨c', hc', hs⟩ := ih
    refine ⟨_, .step i op k hc' ((hs.programs i).trans hk) (hguard c c' i op hs hg), ?_, fun j => ?_⟩
    · exact congrArg (fun w => (exec op w).2) hs.world
    · have hset := (hs.set i (P.next (c.ghosts i) op (exec op c.world).1) (P'.next (c'.ghosts i) op (exec op c'.world).1)
        (k (exec op c.world).1)).programs j
      refine Eq.trans ?_ hset
      show ((c'.set i (P'.next (c'.ghosts i) op (exec op c'.world).1) (k (exec op c'.world).1)).pool j).2 = _
      rw [hs.world]

end

/-! ## A log -/

section
variable {Op : Type} {Res : Op → Type} {W : Type}

/-- Executing an operation and writing it down, when it counts. -/
def logged (exec : (op : Op) → W → Res op × W) (counts : (op : Op) → Res op → Bool) (op : Op) (w : W × List Op) :
    Res op × W × List Op :=
  ((exec op w.1).1, (exec op w.1).2, if counts op (exec op w.1).1 then op :: w.2 else w.2)

end

end S3lite
