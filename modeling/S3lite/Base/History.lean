/-
  S3lite.Base.History — the versions of one key of a versioned store, newest first.

  A version has an id and a content; one without content is a delete marker.
  - `record` puts a version in front, in the place of one of its id; `forget` takes one out;
    `look` finds the newest, or the one of an id.
  - `look_record_self`, `look_record_ne`, `look_forget_ne`: what a write or a removal leaves to
    be found.
  - `NewestFirst`: the records of a store in the order of their times, from which the history
    is read off. Forgetting commutes with that (`map_forget`), and so does looking (`look_map`).
-/
import Mathlib.Data.List.Basic

namespace S3lite

structure Version (I C : Type) where
  id : I
  content : Option C
  deriving DecidableEq

abbrev History (I C : Type) := List (Version I C)

namespace History

variable {I C : Type} [DecidableEq I]

def record (h : History I C) (v : Version I C) : History I C := v :: h.filter fun x => x.id ≠ v.id

def forget (h : History I C) (id : I) : History I C := h.filter fun x => x.id ≠ id

/-- The newest version, or the one of the id. -/
def look (h : History I C) : Option I → Option (Version I C)
  | none => h.head?
  | some id => h.find? fun v => v.id = id

theorem record_eq (h : History I C) (v : Version I C) : h.record v = v :: h.forget v.id := rfl

section
variable {h : History I C} {v : Version I C} {id : I}

theorem look_id (h : History I C) (id : I) : h.look (some id) = h.find? fun v => v.id = id := rfl

@[simp] theorem look_nil (id : Option I) : look ([] : History I C) id = none := by
  cases id <;> rfl

/-- What is found under an id has it. -/
theorem id_of_look (hv : h.look (some id) = some v) : v.id = id := by
  simpa using List.find?_some hv

theorem mem_of_look {id : Option I} (hv : h.look id = some v) : v ∈ h := by
  cases id with
  | none => exact List.mem_of_mem_head? hv
  | some id => exact List.mem_of_find?_eq_some hv

@[simp] theorem look_record_newest (h : History I C) (v : Version I C) : (h.record v).look none = some v := rfl

@[simp] theorem look_record_self (h : History I C) (v : Version I C) : (h.record v).look (some v.id) = some v := by
  simp [record, look]

/-- A write leaves the versions of other ids. -/
theorem look_record_ne (h : History I C) (hne : id ≠ v.id) : (h.record v).look (some id) = h.look (some id) := by
  have hv : ¬ v.id = id := fun e => hne e.symm
  rw [look_id, look_id, record, List.find?_cons_of_neg (by simpa using hv), List.find?_filter]
  congr 1
  funext x
  by_cases hx : x.id = id
  · simp [hx, hne]
  · simp [hx]

@[simp] theorem look_forget_self (h : History I C) (id : I) : (h.forget id).look (some id) = none := by
  rw [look_id, List.find?_eq_none]
  intro x hx
  simpa using (List.mem_filter.mp hx).2

/-- A removal leaves the versions of other ids. -/
theorem look_forget_ne (h : History I C) {id' : I} (hne : id' ≠ id) : (h.forget id).look (some id') = h.look (some id') := by
  rw [look_id, look_id, forget, List.find?_filter]
  congr 1
  funext x
  by_cases hx : x.id = id'
  · simp [hx, hne]
  · simp [hx]

end

end History

/-! ## Records with a time -/

section
variable {α T I C : Type} [LT T] {time : α → T}

def NewestFirst (time : α → T) (l : List α) : Prop := l.Pairwise fun a b => time b < time a

namespace NewestFirst

variable {l l' : List α} {x : α}

theorem nil : NewestFirst time ([] : List α) := List.Pairwise.nil

theorem filter (h : NewestFirst time l) (p : α → Bool) : NewestFirst time (l.filter p) :=
  List.Pairwise.sublist List.filter_sublist h

/-- A record later than all others comes first. -/
theorem cons (h : NewestFirst time l) (hx : ∀ y ∈ l, time y < time x) : NewestFirst time (x :: l) :=
  List.pairwise_cons.mpr ⟨hx, h⟩

/-- The first record is later than the others. -/
theorem head_lt (h : NewestFirst time l) (hx : l.head? = some x) : x ∈ l ∧ ∀ y ∈ l, y ≠ x → time y < time x := by
  cases l with
  | nil => cases hx
  | cons a l =>
    cases hx
    refine ⟨List.mem_cons_self .., fun y hy hne => ?_⟩
    rcases List.mem_cons.mp hy with rfl | hy
    · exact absurd rfl hne
    · exact List.rel_of_pairwise_cons h hy

theorem map (h : NewestFirst time l) {f : α → α} (hf : ∀ a, time (f a) = time a) : NewestFirst time (l.map f) := by
  unfold NewestFirst
  rw [List.pairwise_map]
  refine h.imp fun {a b} hab => ?_
  rw [hf a, hf b]
  exact hab

end NewestFirst

variable [DecidableEq I] {id : α → I} {shown : α → Version I C}

theorem map_forget (hid : ∀ a, (shown a).id = id a) (l : List α) (i : I) :
    (l.filter fun y => id y ≠ i).map shown = History.forget (l.map shown) i := by
  unfold History.forget
  rw [List.filter_map]
  congr 1
  refine List.filter_congr fun y _ => ?_
  rw [Function.comp_apply, hid y]

/-- What is found under an id, where each id has one record. -/
theorem look_map (hid : ∀ a, (shown a).id = id a) {l : List α} (hone : ∀ a ∈ l, ∀ b ∈ l, id a = id b → a = b) {i : I} {x : α}
    (hx : x ∈ l) (hi : id x = i) : History.look (l.map shown) (some i) = some (shown x) := by
  have hfind : l.find? (fun a => (shown a).id = i) = some x := by
    cases hf : l.find? (fun a => (shown a).id = i) with
    | none =>
      have hnot := List.find?_eq_none.mp hf x hx
      simp [hid, hi] at hnot
    | some y =>
      have hy := List.find?_some hf
      rw [decide_eq_true_eq, hid] at hy
      rw [hone y (List.mem_of_find?_eq_some hf) x hx (hy.trans hi.symm)]
  rw [History.look_id, List.find?_map]
  simp only [Function.comp_def]
  rw [hfind]
  rfl

theorem look_map_none (hid : ∀ a, (shown a).id = id a) {l : List α} {i : I} (hnone : ∀ a ∈ l, id a ≠ i) :
    History.look (l.map shown) (some i) = none := by
  rw [History.look_id, List.find?_eq_none]
  intro v hv
  obtain ⟨a, ha, rfl⟩ := List.mem_map.mp hv
  simpa [hid] using hnone a ha

end

end S3lite
