/-
  S3lite.Base.Mailbox — a server behind a bounded queue of messages.

  Clients send a message with a ticket when the queue has room, and wait for the reply; the
  server takes one message after the other and replies. A client that stopped waiting takes
  nothing, and its message is handled all the same.
  - `Linearizes`: an order of handled messages explains a history of calls and returns. It is
    a run of the server alone, every return has its reply in it, no message is in it twice or was
    not sent, and a message sent after another's return comes after it.
  - `Runs.linearizes`: the order in which the messages were handled explains every history.
  - `Runs.calls`: handled and waiting messages are those sent, in the order they were sent.
-/
import Mathlib

namespace S3lite

/-- `a` stands before `b`. -/
def Before {α : Type} (l : List α) (a b : α) : Prop := ∃ i j : Nat, i < j ∧ l[i]? = some a ∧ l[j]? = some b

/-- In a longer list, it did before, or `b` is the new element. -/
theorem Before.snoc {α : Type} {l : List α} {x a b : α} (h : Before (l ++ [x]) a b) : Before l a b ∨ x = b ∧ a ∈ l := by
  obtain ⟨i, j, hij, hi, hj⟩ := h
  have hlen := (List.getElem?_eq_some_iff.mp hj).1
  rw [List.length_append, List.length_singleton] at hlen
  rw [List.getElem?_append_left (by omega)] at hi
  by_cases hlast : j < l.length
  · rw [List.getElem?_append_left hlast] at hj
    exact Or.inl ⟨i, j, hij, hi, hj⟩
  · obtain rfl : j = l.length := by omega
    rw [List.getElem?_concat_length] at hj
    exact Or.inr ⟨Option.some.inj hj, List.mem_of_getElem? hi⟩

theorem before_range {n t t' : Nat} (h : t < t') (h' : t' < n) : Before (List.range n) t t' :=
  ⟨t, t', h, List.getElem?_range (by omega), List.getElem?_range h'⟩

structure Mailbox (S M : Type) (R : M → Type) where
  server : S
  queue : List (Nat × M)
  /-- The replies that were not taken yet. -/
  replies : Nat → Option (Σ m, R m)
  issued : Nat

namespace Mailbox

variable {S M : Type} {R : M → Type}

inductive Event (M : Type) (R : M → Type) where
  | called (ticket : Nat) (m : M)
  | returned (ticket : Nat) (r : Σ m, R m)

/-- A message that was handled, with its reply. -/
abbrev Handled (M : Type) (R : M → Type) := Nat × Σ m, R m

section
variable (handle : (m : M) → S → R m × S)

/-- The server alone handles these messages, with these replies. -/
inductive Legal : S → List (Handled M R) → S → Prop
  | nil (s : S) : Legal s [] s
  | cons {s s' : S} {done : List (Handled M R)} (ticket : Nat) (m : M) : Legal (handle m s).2 done s' →
      Legal s ((ticket, ⟨m, (handle m s).1⟩) :: done) s'

structure Linearizes (s0 : S) (history : List (Event M R)) (done : List (Handled M R)) : Prop where
  legal : ∃ s, Legal handle s0 done s
  once : (done.map (·.1)).Nodup
  called : ∀ e ∈ done, .called e.1 e.2.1 ∈ history
  returned : ∀ ticket r, .returned ticket r ∈ history → (ticket, r) ∈ done
  ordered : ∀ t r t' m, Before history (.returned t r) (.called t' m) → t' ∈ done.map (·.1) → Before (done.map (·.1)) t t'

variable (capacity : Nat) (s0 : S)

/-- The histories that mailbox and clients make, with the messages handled so far. -/
inductive Runs : List (Event M R) → List (Handled M R) → Mailbox S M R → Prop
  | start : Runs [] [] ⟨s0, [], fun _ => none, 0⟩
  | call {history done} {b : Mailbox S M R} (m : M) : Runs history done b → b.queue.length < capacity →
      Runs (history ++ [.called b.issued m]) done { b with queue := b.queue ++ [(b.issued, m)], issued := b.issued + 1 }
  | handle {history done} {b : Mailbox S M R} {ticket : Nat} {m : M} {rest : List (Nat × M)} : Runs history done b →
      b.queue = (ticket, m) :: rest →
      Runs history (done ++ [(ticket, ⟨m, (handle m b.server).1⟩)])
        { b with server := (handle m b.server).2, queue := rest,
                 replies := Function.update b.replies ticket (some ⟨m, (handle m b.server).1⟩) }
  | take {history done} {b : Mailbox S M R} {ticket : Nat} {r : Σ m, R m} : Runs history done b → b.replies ticket = some r →
      Runs (history ++ [.returned ticket r]) done { b with replies := Function.update b.replies ticket none }

/-- The messages sent, in order. -/
def callsOf (history : List (Event M R)) : List (Nat × M) :=
  history.filterMap fun
    | .called ticket m => some (ticket, m)
    | .returned .. => none

variable {handle capacity s0} {history : List (Event M R)} {done : List (Handled M R)} {b : Mailbox S M R}

theorem Legal.snoc {s s' : S} (h : Legal handle s done s') (ticket : Nat) (m : M) :
    Legal handle s (done ++ [(ticket, ⟨m, (handle m s').1⟩)]) (handle m s').2 := by
  induction h with
  | nil s => exact .cons ticket m (.nil _)
  | cons t m' _ ih => exact .cons t m' ih

theorem mem_callsOf {ticket : Nat} {m : M} : (ticket, m) ∈ callsOf history ↔ .called ticket m ∈ history := by
  unfold callsOf
  rw [List.mem_filterMap]
  constructor
  · intro h
    obtain ⟨e, he, hcall⟩ := h
    cases e with
    | called t m' =>
      cases hcall
      exact he
    | returned t r => cases hcall
  · exact fun h => ⟨_, h, rfl⟩

theorem callsOf_call (history : List (Event M R)) (ticket : Nat) (m : M) :
    callsOf (history ++ [.called ticket m]) = callsOf history ++ [(ticket, m)] := List.filterMap_append

theorem callsOf_return (history : List (Event M R)) (ticket : Nat) (r : Σ m, R m) :
    callsOf (history ++ [.returned ticket r]) = callsOf history :=
  List.filterMap_append.trans (List.append_nil _)

/-! ## The order of handling -/

/-- Nothing sent is lost, and nothing overtakes. -/
theorem Runs.calls (h : Runs handle capacity s0 history done b) :
    callsOf history = done.map (fun e => (e.1, e.2.1)) ++ b.queue := by
  induction h with
  | start => rfl
  | call m _ _ ih => rw [callsOf_call, ih, List.append_assoc]
  | handle _ hq ih => rw [ih, hq, List.map_append, List.append_assoc]; rfl
  | take _ _ ih => rw [callsOf_return, ih]

theorem Runs.tickets (h : Runs handle capacity s0 history done b) : (callsOf history).map (·.1) = List.range b.issued := by
  induction h with
  | start => rfl
  | call m _ _ ih =>
    rw [callsOf_call, List.map_append, ih, List.range_succ]
    rfl
  | handle _ _ ih => exact ih
  | take _ _ ih =>
    rw [callsOf_return]
    exact ih

/-- The handled messages have the first tickets, in order. -/
theorem Runs.handled (h : Runs handle capacity s0 history done b) : done.map (·.1) = List.range done.length := by
  have htickets := h.tickets
  rw [h.calls, List.map_append, List.map_map] at htickets
  have hprefix : done.map (·.1) <+: List.range b.issued := ⟨_, htickets⟩
  have htake := List.prefix_iff_eq_take.mp hprefix
  have hle := hprefix.length_le
  rw [List.length_map, List.length_range] at hle
  rw [htake, List.take_range, List.length_map, Nat.min_eq_left hle]

theorem Runs.legal (h : Runs handle capacity s0 history done b) : Legal handle s0 done b.server := by
  induction h with
  | start => exact .nil _
  | call m _ _ ih => exact ih
  | handle _ _ ih => exact ih.snoc _ _
  | take _ _ ih => exact ih

theorem Runs.replied (h : Runs handle capacity s0 history done b) {ticket : Nat} {r : Σ m, R m} (hr : b.replies ticket = some r) :
    (ticket, r) ∈ done := by
  induction h with
  | start => cases hr
  | call m _ _ ih => exact ih hr
  | @handle history done b t m rest _ _ ih =>
    dsimp only at hr
    by_cases e : ticket = t
    · subst e
      rw [Function.update_self] at hr
      cases hr
      exact List.mem_append_right _ (List.mem_singleton.mpr rfl)
    · rw [Function.update_of_ne e] at hr
      exact List.mem_append_left _ (ih hr)
  | @take history done b t r' _ _ ih =>
    dsimp only at hr
    by_cases e : ticket = t
    · subst e
      rw [Function.update_self] at hr
      cases hr
    · rw [Function.update_of_ne e] at hr
      exact ih hr

theorem Runs.returned (h : Runs handle capacity s0 history done b) {ticket : Nat} {r : Σ m, R m}
    (hr : .returned ticket r ∈ history) : (ticket, r) ∈ done := by
  induction h with
  | start => cases hr
  | call m _ _ ih =>
    rcases List.mem_append.mp hr with hr | hr
    · exact ih hr
    · cases List.mem_singleton.mp hr
  | handle _ _ ih => exact List.mem_append_left _ (ih hr)
  | take hrun hready ih =>
    rcases List.mem_append.mp hr with hr | hr
    · exact ih hr
    · cases List.mem_singleton.mp hr
      exact hrun.replied hready

/-- A ticket issued after a return is a later one. -/
theorem Runs.later (h : Runs handle capacity s0 history done b) {t t' : Nat} {r : Σ m, R m} {m : M}
    (hb : Before history (.returned t r) (.called t' m)) : t < t' := by
  induction h with
  | start =>
    obtain ⟨i, j, -, hi, -⟩ := hb
    cases hi
  | @call history done b m' hrun _ ih =>
    rcases hb.snoc with hb | ⟨hcall, hmem⟩
    · exact ih hb
    · -- the call just made has a new ticket
      cases hcall
      have hdone := hrun.returned hmem
      have hissued : t ∈ (callsOf history).map (·.1) := by
        rw [hrun.calls, List.map_append, List.map_map]
        exact List.mem_append_left _ (List.mem_map_of_mem (f := fun e : Handled M R => e.1) hdone)
      rw [hrun.tickets] at hissued
      exact List.mem_range.mp hissued
  | handle _ _ ih => exact ih hb
  | take _ _ ih =>
    rcases hb.snoc with hb | ⟨hcall, -⟩
    · exact ih hb
    · cases hcall

theorem Runs.linearizes (h : Runs handle capacity s0 history done b) : Linearizes handle s0 history done := by
  refine ⟨⟨_, h.legal⟩, ?_, fun e he => ?_, fun ticket r hr => h.returned hr, fun t r t' m hb ht' => ?_⟩
  · rw [h.handled]
    exact List.nodup_range
  · rw [← mem_callsOf, h.calls]
    exact List.mem_append_left _ (List.mem_map_of_mem (f := fun e : Handled M R => (e.1, e.2.1)) he)
  · rw [h.handled] at ht' ⊢
    exact before_range (h.later hb) (List.mem_range.mp ht')

end

end Mailbox

end S3lite
