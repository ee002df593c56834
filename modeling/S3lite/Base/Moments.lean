/-
  S3lite.Base.Moments — what programs answer, and the moments at which they acted.

  Each program has a label, acts on the world and sends its value in the end. A run writes down
  what is sent and, for every operation, the label and the world it met (`watch`).
  - `journaling`: the protocol whose ghost state is a program's journal, its operations with
    their results.
  - `Reach.answered`: in every interleaving, an answer that is sent is what its program ends in
    for some journal, whose entries are results at moments of the answer's label.
  - `Reach.lowered_answers`: where the operations are implemented by finer ones, what runs of the
    lowered programs send, runs of the programs themselves send, to the same labels in that order.
-/
import S3lite.Base.Lowering

namespace S3lite

inductive SendOp (L Op A : Type) where
  | act (l : L) (op : Op)
  | send (l : L) (a : A)

@[reducible] def SendOp.Res {L Op A : Type} (Res : Op → Type) : SendOp L Op A → Type
  | act _ op => Res op
  | send .. => Unit

/-- A world, with the moments of all operations so far and what was sent. -/
structure Watched (L W A : Type) where
  world : W
  moments : List (L × W)
  sent : List (L × A)

/-- The operations of a program with their results. -/
abbrev Journal (Op : Type) (Res : Op → Type) := List (Σ op : Op, Res op)

section
variable {L Op A W : Type} {Res : Op → Type} (exec : (op : Op) → W → Res op × W)

def watch : (o : SendOp L Op A) → Watched L W A → o.Res Res × Watched L W A
  | .act l op, w => ((exec op w.world).1, ⟨(exec op w.world).2, (l, w.world) :: w.moments, w.sent⟩)
  | .send l a, w => ((), ⟨w.world, w.moments, (l, a) :: w.sent⟩)

namespace Prog

variable {α : Type}

/-- The program under its label. -/
def acting (l : L) : Prog Op Res α → Prog (SendOp L Op A) (SendOp.Res Res) α
  | ret a => ret a
  | call op k => call (.act l op) fun r => acting l (k r)

/-- The program, which sends its value. -/
def answering (l : L) (p : Prog Op Res A) : Prog (SendOp L Op A) (SendOp.Res Res) Unit :=
  (p.acting l).bind fun a => perform (SendOp.send l a)

/-- The program, which sends nothing. -/
def silent (l : L) (p : Prog Op Res α) : Prog (SendOp L Op A) (SendOp.Res Res) Unit := (p.acting l).bind fun _ => ret ()

/-- A program writes its journal. -/
def journaling : Protocol Op Res (Journal Op Res) := ⟨fun _ _ => True, fun _ _ _ => True, fun g op r => g ++ [⟨op, r⟩]⟩

/-- What is sent may be sent with the journal of its label. -/
def answers (Q : L → A → Journal Op Res → Prop) : Protocol (SendOp L Op A) (SendOp.Res Res) (List (L × Σ op : Op, Res op)) where
  ok
    | g, .send l a => ∃ journal, g = journal.map (Prod.mk l) ∧ Q l a journal
    | _, .act .. => True
  res := fun _ _ _ => True
  next
    | g, .act l op, r => g ++ [(l, ⟨op, r⟩)]
    | g, .send .., _ => g

variable {Q : L → A → Journal Op Res → Prop} {l : L}

theorem Follows.acting {p : Prog Op Res α} {R : α → Journal Op Res → Prop} {journal : Journal Op Res}
    (h : Follows journaling p R journal) :
    Follows (answers Q) (p.acting l) (fun a g => ∃ journal, g = journal.map (Prod.mk l) ∧ R a journal) (journal.map (Prod.mk l)) := by
  induction p generalizing journal with
  | ret a => exact ⟨journal, rfl, h⟩
  | call op k ih =>
    refine ⟨trivial, fun r _ => ?_⟩
    have hnext := ih r (h.2 r trivial)
    rw [journaling, List.map_append] at hnext
    exact hnext

theorem Follows.answering {p : Prog Op Res A} (h : Follows journaling p (Q l) []) :
    Follows (answers Q) (p.answering l) (fun _ _ => True) [] := by
  refine follows_bind.mpr (Follows.mono (Follows.acting h) fun a g hq => ?_)
  exact ⟨hq, fun _ _ => trivial⟩

theorem follows_silent (p : Prog Op Res α) : Follows (answers Q) (p.silent l : Prog (SendOp L Op A) (SendOp.Res Res) Unit) (fun _ _ => True) [] :=
  follows_bind.mpr (Follows.mono (Follows.acting (follows_of_ok (P := journaling) (fun _ _ => trivial) p [])) fun _ _ _ => trivial)

end Prog

variable {exec} {Q : L → A → Journal Op Res → Prop} {w0 : W}

/-- The entry is the result at a moment of the label. -/
def Watched.Has (exec : (op : Op) → W → Res op × W) (w : Watched L W A) (l : L) (e : Σ op : Op, Res op) : Prop :=
  ∃ v, (l, v) ∈ w.moments ∧ (exec e.1 v).1 = e.2

theorem Watched.Has.step {w : Watched L W A} {l : L} {e : Σ op : Op, Res op} (h : w.Has exec l e) (o : SendOp L Op A) :
    (watch exec o w).2.Has exec l e := by
  obtain ⟨v, hv, hresult⟩ := h
  cases o with
  | act => exact ⟨v, List.mem_cons_of_mem _ hv, hresult⟩
  | send => exact ⟨v, hv, hresult⟩

/-- The journals are of moments of their labels, and so are those of the answers sent. -/
structure Kept (exec : (op : Op) → W → Res op × W) (Q : L → A → Journal Op Res → Prop) (w : Watched L W A)
    (gs : Nat → List (L × Σ op : Op, Res op)) : Prop where
  journals : ∀ i, ∀ x ∈ gs i, w.Has exec x.1 x.2
  sent : ∀ l a, (l, a) ∈ w.sent → ∃ journal, Q l a journal ∧ ∀ e ∈ journal, w.Has exec l e

theorem Kept.idle {w : Watched L W A} {gs : Nat → List (L × Σ op : Op, Res op)} (h : Kept exec Q w gs) (i : Nat) :
    Kept exec Q w (Function.update gs i []) := by
  refine ⟨fun j x hx => ?_, h.sent⟩
  rw [Function.update_apply] at hx
  split at hx
  · cases hx
  · exact h.journals j x hx

theorem Kept.step {w : Watched L W A} {gs : Nat → List (L × Σ op : Op, Res op)} (h : Kept exec Q w gs) (i : Nat) (o : SendOp L Op A)
    (hok : (Prog.answers Q).ok (gs i) o) :
    Kept exec Q (watch exec o w).2 (Function.update gs i ((Prog.answers Q).next (gs i) o (watch exec o w).1)) := by
  constructor
  · intro j x hx
    rw [Function.update_apply] at hx
    split at hx
    · cases o with
      | act l op =>
        rcases List.mem_append.mp hx with hx | hx
        · exact (h.journals i x hx).step _
        · rw [List.mem_singleton.mp hx]
          exact ⟨w.world, List.mem_cons_self .., rfl⟩
      | send l a => exact (h.journals i x hx).step (.send l a)
    · exact (h.journals j x hx).step o
  · intro l a hsent
    have hold : (l, a) ∈ w.sent → ∃ journal, Q l a journal ∧ ∀ e ∈ journal, (watch exec o w).2.Has exec l e := by
      intro hsent
      obtain ⟨journal, hq, hhas⟩ := h.sent l a hsent
      exact ⟨journal, hq, fun e he => (hhas e he).step o⟩
    cases o with
    | act l' op => exact hold hsent
    | send l' a' =>
      rcases List.mem_cons.mp hsent with e | hsent
      · cases e
        obtain ⟨journal, hg, hq⟩ := hok
        refine ⟨journal, hq, fun e he => ?_⟩
        have hhas := h.journals i (l, e) (hg ▸ List.mem_map_of_mem he)
        exact hhas.step (.send l a)
      · exact hold hsent

theorem Reach.answered {Start : Prog (SendOp L Op A) (SendOp.Res Res) Unit → Prop}
    {Guard : Config (SendOp L Op A) (SendOp.Res Res) (Watched L W A) Unit → Nat → SendOp L Op A → Prop}
    (hstart : ∀ p, Start p → (∃ l q, p = q.answering l ∧ Prog.Follows Prog.journaling q (Q l) []) ∨
      ∃ l α, ∃ q : Prog Op Res α, p = q.silent l)
    {c : Config (SendOp L Op A) (SendOp.Res Res) (Watched L W A) Unit}
    (h : Reach (watch exec) (.only fun _ => True) () Start Guard ⟨w0, [], []⟩ c) {l : L} {a : A} (hsent : (l, a) ∈ c.world.sent) :
    ∃ journal, Q l a journal ∧ ∀ e ∈ journal, c.world.Has exec l e := by
  obtain ⟨c', hc', hsame⟩ : ∃ c', Reach (watch exec) (Prog.answers Q) [] Start (fun _ _ _ => True) ⟨w0, [], []⟩ c' ∧ c.SameRun c' :=
    h.reghost fun _ _ _ _ _ _ => trivial
  have hkept := (Reach.sound (I := Kept exec Q) ⟨fun _ _ hx => absurd hx List.not_mem_nil, fun _ _ hx => absurd hx List.not_mem_nil⟩
    (fun _ _ i hk => hk.idle i) (fun _ i op hk hok _ => ⟨trivial, hk.step i op hok⟩) (fun p hp => ?_) hc').1
  · rw [hsame.world] at hkept
    exact hkept.sent l a hsent
  · rcases hstart p hp with ⟨l, q, rfl, hq⟩ | ⟨l, α, q, rfl⟩
    · exact hq.answering
    · exact Prog.follows_silent q

/-- What every operation keeps of the world held at every moment. -/
theorem Reach.moments {Start : Prog (SendOp L Op A) (SendOp.Res Res) Unit → Prop}
    {Guard : Config (SendOp L Op A) (SendOp.Res Res) (Watched L W A) Unit → Nat → SendOp L Op A → Prop} {I : W → Prop}
    (h0 : I w0) (hstep : ∀ op w, I w → I (exec op w).2) {c : Config (SendOp L Op A) (SendOp.Res Res) (Watched L W A) Unit}
    (h : Reach (watch exec) (.only fun _ => True) () Start Guard ⟨w0, [], []⟩ c) {x : L × W} (hx : x ∈ c.world.moments) : I x.2 := by
  have hall : I c.world.world ∧ ∀ x ∈ c.world.moments, I x.2 := by
    refine Reach.world (I := fun w : Watched L W A => I w.world ∧ ∀ x ∈ w.moments, I x.2) ⟨h0, fun _ hx => absurd hx List.not_mem_nil⟩
      (fun o w hw => ?_) h
    cases o with
    | act l op =>
      refine ⟨hstep op _ hw.1, fun x hx => ?_⟩
      rcases List.mem_cons.mp hx with rfl | hx
      · exact hw.1
      · exact hw.2 x hx
    | send => exact hw
  exact hall.2 x hx

end

/-! ## Lowered -/

section
variable {L Op COp A W CW G : Type} {Res : Op → Type} {CRes : COp → Type}
variable {exec : (op : Op) → W → Res op × W} {cexec : (c : COp) → CW → CRes c × CW}

namespace Prog

/-- Operations are implemented under their label, and answers are sent as they are. -/
def implementing (impl : (op : Op) → Prog COp CRes (Res op)) :
    (o : SendOp L Op A) → Prog (SendOp L COp A) (SendOp.Res CRes) (o.Res Res)
  | .act l op => (impl op).acting l
  | .send l a => perform (SendOp.send l a)

/-- The contract of an operation, under its label. -/
def Contract.labelled (l : L) {B : Type} (C : Contract COp CRes G B) : Contract (SendOp L COp A) (SendOp.Res CRes) G B where
  ok
    | g, result, .act l' c => l' = l ∧ C.ok g result c
    | _, _, .send .. => False
  moves
    | g, result, .act _ c, x, g', result' => C.moves g result c x g' result'
    | _, _, .send .., _, _, _ => False

/-- The contract of an answer. -/
def Contract.sending (l : L) (a : A) : Contract (SendOp L COp A) (SendOp.Res CRes) G Unit where
  ok := fun _ result c => result = none ∧ c = .send l a
  moves := fun g _ _ _ g' result' => g' = g ∧ result' = some ()

def Contract.watched (C : (op : Op) → Contract COp CRes G (Res op)) :
    (o : SendOp L Op A) → Contract (SendOp L COp A) (SendOp.Res CRes) G (o.Res Res)
  | .act l op => (C op).labelled l
  | .send l a => .sending l a

variable {impl : (op : Op) → Prog COp CRes (Res op)} {C : (op : Op) → Contract COp CRes G (Res op)} {g0 g : G}

theorem Delivers.acting {B : Type} {D : Contract COp CRes G B} {q : Prog COp CRes B} {result : Option B} (h : Delivers D q g result) (l : L) :
    Delivers (D.labelled l) (q.acting l : Prog (SendOp L COp A) (SendOp.Res CRes) B) g result := by
  induction q generalizing g result with
  | ret r => exact h
  | call c k ih => exact ⟨⟨rfl, h.1⟩, fun x g' result' hmoves => ih x (h.2 x g' result' hmoves)⟩

theorem delivers_implementing (himpl : ∀ op, Delivers (C op) (impl op) g0 none) (o : SendOp L Op A) :
    Delivers (Contract.watched C o) (implementing impl o) g0 none := by
  cases o with
  | act l op => exact (himpl op).acting l
  | send l a =>
    refine ⟨⟨rfl, rfl⟩, fun x g' result' hmoves => ?_⟩
    exact hmoves.2

end Prog

variable {impl : (op : Op) → Prog COp CRes (Res op)} {C : (op : Op) → Prog.Contract COp CRes G (Res op)} {g0 : G}
variable {R : W → CW → (Nat → G) → Prop} {Allowed : CW → COp → Prop} {Fits : W → Op → Prop} {w0 : W} {cw0 : CW}

/-- The operation of the program, if it is one, meets the condition. -/
def SendOp.Meets (Fits : W → Op → Prop) (w : Watched L W A) : SendOp L Op A → Prop
  | .act _ op => Fits w.world op
  | .send .. => True

/-- The worlds are related, and the same was sent. -/
def Watched.Matches (R : W → CW → (Nat → G) → Prop) (w : Watched L W A) (cw : Watched L CW A) (gs : Nat → G) : Prop :=
  R w.world cw.world gs ∧ w.sent = cw.sent

theorem Reach.lowered_answers (himpl : ∀ op, Prog.Delivers (C op) (impl op) g0 none) (h0 : R w0 cw0 fun _ => g0)
    (hidle : ∀ w cw gs i, R w cw gs → R w cw (Function.update gs i g0))
    (hstep : ∀ op w cw gs i result c, R w cw gs → (C op).ok (gs i) result c → Allowed cw c →
      ∃ g' result', (C op).moves (gs i) result c (cexec c cw).1 g' result' ∧
        (result' = result ∧ R w (cexec c cw).2 (Function.update gs i g') ∨
          result = none ∧ result' = some (exec op w).1 ∧ Fits w op ∧
            R (exec op w).2 (cexec c cw).2 (Function.update gs i g')))
    {Start : Prog (SendOp L Op A) (SendOp.Res Res) Unit → Prop}
    {c : Config (SendOp L COp A) (SendOp.Res CRes) (Watched L CW A) Unit}
    (h : Reach (watch cexec) (.only fun _ => True) () (fun p => ∃ q, Start q ∧ p = q.lower (Prog.implementing impl))
      (fun c _ o => o.Meets Allowed c.world) ⟨cw0, [], []⟩ c) :
    ∃ a gs, Reach (watch exec) (.only fun _ => True) () Start (fun a _ o => o.Meets Fits a.world) ⟨w0, [], []⟩ a ∧
      R a.world.world c.world.world gs ∧ a.world.sent = c.world.sent ∧
        ∀ i, Prog.Stage (Prog.implementing impl) (Prog.Contract.watched C) g0 (a.pool i).2 (c.pool i).2 (gs i) := by
  have hinit : Watched.Matches R ⟨w0, [], []⟩ (⟨cw0, [], []⟩ : Watched L CW A) fun _ => g0 := ⟨h0, rfl⟩
  have hstep' : ∀ (o : SendOp L Op A) (w : Watched L W A) (cw : Watched L CW A) gs i result c, Watched.Matches R w cw gs →
      (Prog.Contract.watched C o).ok (gs i) result c → c.Meets Allowed cw →
        ∃ g' result', (Prog.Contract.watched C o).moves (gs i) result c (watch cexec c cw).1 g' result' ∧
          (result' = result ∧ Watched.Matches R w (watch cexec c cw).2 (Function.update gs i g') ∨
            result = none ∧ result' = some (watch exec o w).1 ∧ o.Meets Fits w ∧
              Watched.Matches R (watch exec o w).2 (watch cexec c cw).2 (Function.update gs i g')) := by
    intro o w cw gs i result c hr hok hallowed
    obtain ⟨hr, hsent⟩ := hr
    cases o with
    | act l op =>
      cases c with
      | act l' c =>
        obtain ⟨rfl, hok⟩ := hok
        obtain ⟨g', result', hmoves, hcase⟩ := hstep op _ _ gs i result c hr hok hallowed
        refine ⟨g', result', hmoves, ?_⟩
        rcases hcase with ⟨hsame, hr'⟩ | ⟨hnone, hsome, hfits, hr'⟩
        · exact Or.inl ⟨hsame, hr', hsent⟩
        · exact Or.inr ⟨hnone, hsome, hfits, hr', hsent⟩
      | send => cases hok
    | send l a =>
      obtain ⟨rfl, rfl⟩ := hok
      refine ⟨gs i, some (), ⟨rfl, rfl⟩, Or.inr ⟨rfl, rfl, trivial, ?_, congrArg _ hsent⟩⟩
      rw [Function.update_eq_self]
      exact hr
  obtain ⟨a, gs, ha, hr, hstage⟩ := Reach.lowered (P := .only fun _ => True) (Prog.delivers_implementing himpl) hinit
    (fun _ _ _ i hr => ⟨hidle _ _ _ i hr.1, hr.2⟩) hstep' h
  exact ⟨a, gs, ha, hr.1, hr.2, hstage⟩

end

end S3lite
