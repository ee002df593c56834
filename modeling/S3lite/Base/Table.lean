/-
  S3lite.Base.Table — ordered tables: finite maps held as key-sorted rows, with lookup,
  insert (replacing), erase and half-open range scans in key order.

  - `get_insert` / `get_erase`: what a lookup sees after a write.
  - `find?_insert`: the first row of some keys after a write.
  - `mem_rows` / `mem_insert` / `mem_erase` / `mem_range`: the rows are exactly the
    bindings, and a write changes only its own key's row.
  - `foldl_insert_perm`: its rows, inserted in any order, make the table.
  - `sumBy`: a weight summed over the rows' values; `sumBy_insert` and `sumBy_erase` say
    how one write moves the sum.
-/
import Mathlib

namespace S3lite

/-- A finite map as its rows, in strictly ascending key order. -/
structure Table (K V : Type) [LinearOrder K] where
  rows : List (K × V)
  sorted : rows.Pairwise fun a b => a.1 < b.1

namespace Table

variable {K V : Type} [LinearOrder K]

def empty : Table K V := ⟨[], .nil⟩

def get (t : Table K V) (k : K) : Option V := (t.rows.find? fun r => r.1 = k).map (·.2)

/-- Insert into sorted rows, replacing the row of the same key. -/
def insertRow (k : K) (v : V) : List (K × V) → List (K × V)
  | [] => [(k, v)]
  | r :: rs => if k < r.1 then (k, v) :: r :: rs else if k = r.1 then (k, v) :: rs else r :: insertRow k v rs

theorem mem_insertRow {k : K} {v : V} {l : List (K × V)} (hl : l.Pairwise fun a b => a.1 < b.1) {r : K × V} :
    r ∈ insertRow k v l ↔ r = (k, v) ∨ r ∈ l ∧ r.1 ≠ k := by
  induction l with
  | nil => simp [insertRow]
  | cons x l ih =>
    obtain ⟨hx, hl⟩ := List.pairwise_cons.mp hl
    simp only [insertRow]
    split
    · rename_i hk
      have hne : ∀ y ∈ x :: l, y.1 ≠ k := by
        intro y hy e
        rcases List.mem_cons.mp hy with rfl | hy
        · exact absurd hk (by simp [e])
        · exact absurd (lt_trans hk (hx y hy)) (by simp [e])
      simp only [List.mem_cons (a := r) (b := (k, v))]
      exact or_congr_right ⟨fun h => ⟨h, hne r h⟩, fun h => h.1⟩
    · split
      · rename_i hk
        have hne : ∀ y ∈ l, y.1 ≠ k := fun y hy e => absurd (hx y hy) (by simp [e, hk])
        simp only [List.mem_cons]
        constructor
        · rintro (h | h)
          · exact Or.inl h
          · exact Or.inr ⟨Or.inr h, hne r h⟩
        · rintro (h | ⟨rfl | h, hn⟩)
          · exact Or.inl h
          · exact absurd hk.symm hn
          · exact Or.inr h
      · rename_i hk
        simp only [List.mem_cons, ih hl]
        constructor
        · rintro (rfl | h | ⟨h, hn⟩)
          · exact Or.inr ⟨Or.inl rfl, Ne.symm hk⟩
          · exact Or.inl h
          · exact Or.inr ⟨Or.inr h, hn⟩
        · rintro (h | ⟨rfl | h, hn⟩)
          · exact Or.inr (Or.inl h)
          · exact Or.inl rfl
          · exact Or.inr (Or.inr ⟨h, hn⟩)

theorem insertRow_sorted (k : K) (v : V) {l : List (K × V)} (hl : l.Pairwise fun a b => a.1 < b.1) :
    (insertRow k v l).Pairwise fun a b => a.1 < b.1 := by
  induction l with
  | nil => simp [insertRow]
  | cons x l ih =>
    have hl' := hl
    obtain ⟨hx, hl⟩ := List.pairwise_cons.mp hl
    simp only [insertRow]
    split
    · rename_i hk
      refine List.pairwise_cons.mpr ⟨fun y hy => ?_, hl'⟩
      rcases List.mem_cons.mp hy with rfl | hy
      · exact hk
      · exact lt_trans hk (hx y hy)
    · split
      · rename_i hk
        exact List.pairwise_cons.mpr ⟨fun y hy => by simpa [hk] using hx y hy, hl⟩
      · rename_i h1 h2
        refine List.pairwise_cons.mpr ⟨fun y hy => ?_, ih hl⟩
        rcases (mem_insertRow hl).mp hy with rfl | ⟨hy, -⟩
        · exact lt_of_le_of_ne (not_lt.mp h1) (Ne.symm h2)
        · exact hx y hy

/-- The first row by its key: an inserted one comes before those of keys not below it. -/
theorem find?_insertRow (p : K → Bool) (k : K) (v : V) {l : List (K × V)} (hl : l.Pairwise fun a b => a.1 < b.1) :
    (insertRow k v l).find? (fun r => p r.1) =
      if p k = true ∧ (l.find? fun r => p r.1).all (fun r => decide (k ≤ r.1)) = true then some (k, v)
      else l.find? fun r => p r.1 := by
  induction l with
  | nil =>
    cases hp : p k <;> simp [insertRow, hp]
  | cons x l ih =>
    obtain ⟨hx, hl⟩ := List.pairwise_cons.mp hl
    have hle : k ≤ x.1 → ((x :: l).find? fun r => p r.1).all (fun r => decide (k ≤ r.1)) = true := by
      intro hk
      rw [Option.all_eq_true]
      intro r hr
      rcases List.mem_cons.mp (List.mem_of_find?_eq_some hr) with rfl | hr
      · exact decide_eq_true hk
      · exact decide_eq_true (hk.trans (hx r hr).le)
    simp only [insertRow]
    split
    · rename_i hk
      rw [List.find?_cons, hle hk.le]
      cases p k <;> simp
    · split
      · rename_i hk
        rw [List.find?_cons, hle hk.le]
        cases hp : p k with
        | true => simp
        | false => simp [hp, ← hk]
      · rename_i h1 h2
        rw [List.find?_cons, List.find?_cons, ih hl]
        cases hp : p x.1 with
        | true =>
          have hnot : ¬ k ≤ x.1 := not_le.mpr (lt_of_le_of_ne (not_lt.mp h1) (Ne.symm h2))
          simp [hnot]
        | false => rfl

def insert (t : Table K V) (k : K) (v : V) : Table K V := ⟨insertRow k v t.rows, insertRow_sorted k v t.sorted⟩

theorem find?_insert (t : Table K V) (p : K → Bool) (k : K) (v : V) : (t.insert k v).rows.find? (fun r => p r.1) =
    if p k = true ∧ (t.rows.find? fun r => p r.1).all (fun r => decide (k ≤ r.1)) = true then some (k, v)
    else t.rows.find? fun r => p r.1 := find?_insertRow p k v t.sorted

def erase (t : Table K V) (k : K) : Table K V := ⟨t.rows.filter fun r => r.1 ≠ k, t.sorted.filter _⟩

/-- The rows of these keys. -/
def restrict (t : Table K V) (keep : K → Bool) : Table K V := ⟨t.rows.filter fun r => keep r.1, t.sorted.filter _⟩

/-- The rows with `lo ≤ key < hi`, in key order. -/
def range (t : Table K V) (lo hi : K) : List (K × V) := t.rows.filter fun r => lo ≤ r.1 ∧ r.1 < hi

/-! ## Rows and lookups -/

theorem key_unique (t : Table K V) {a b : K × V} (ha : a ∈ t.rows) (hb : b ∈ t.rows) (h : a.1 = b.1) : a = b := by
  by_contra hne
  have hnd : t.rows.Pairwise fun a b => a.1 ≠ b.1 := t.sorted.imp fun h => h.ne
  have : Std.Symm fun a b : K × V => a.1 ≠ b.1 := ⟨fun _ _ h => h.symm⟩
  exact hnd.forall ha hb hne h

/-- The rows are exactly the bindings. -/
theorem mem_rows {t : Table K V} {k : K} {v : V} : (k, v) ∈ t.rows ↔ t.get k = some v := by
  simp only [get, Option.map_eq_some_iff]
  constructor
  · intro h
    cases hf : t.rows.find? fun r => r.1 = k with
    | none => exact absurd (List.find?_eq_none.mp hf (k, v) h) (by simp)
    | some r =>
      have hk : r.1 = k := by simpa using List.find?_some hf
      have := t.key_unique (List.mem_of_find?_eq_some hf) h hk
      exact ⟨r, rfl, by rw [this]⟩
  · rintro ⟨r, hr, rfl⟩
    have hk : r.1 = k := by simpa using List.find?_some hr
    have := List.mem_of_find?_eq_some hr
    rwa [← hk]

theorem get_of_mem {t : Table K V} {r : K × V} (h : r ∈ t.rows) : t.get r.1 = some r.2 := mem_rows.mp h

theorem get_eq_none {t : Table K V} {k : K} : t.get k = none ↔ ∀ r ∈ t.rows, r.1 ≠ k := by
  simp [get]

theorem mem_insert {t : Table K V} {k : K} {v : V} {r : K × V} :
    r ∈ (t.insert k v).rows ↔ r = (k, v) ∨ r ∈ t.rows ∧ r.1 ≠ k := mem_insertRow t.sorted

theorem mem_erase {t : Table K V} {k : K} {r : K × V} : r ∈ (t.erase k).rows ↔ r ∈ t.rows ∧ r.1 ≠ k := by
  simp [erase]

theorem mem_range {t : Table K V} {lo hi : K} {r : K × V} : r ∈ t.range lo hi ↔ r ∈ t.rows ∧ lo ≤ r.1 ∧ r.1 < hi := by
  simp [range]

theorem range_sorted (t : Table K V) (lo hi : K) : (t.range lo hi).Pairwise fun a b => a.1 < b.1 :=
  t.sorted.filter _

@[simp] theorem get_empty (k : K) : (empty : Table K V).get k = none := rfl

theorem get_insert (t : Table K V) (k k' : K) (v : V) :
    (t.insert k v).get k' = if k' = k then some v else t.get k' := by
  split
  · rename_i h
    exact mem_rows.mp (mem_insert.mpr (Or.inl (by rw [h])))
  · rename_i h
    refine Option.ext fun u => ?_
    rw [← mem_rows, ← mem_rows, mem_insert]
    constructor
    · rintro (e | ⟨hm, -⟩)
      · exact absurd (congrArg Prod.fst e) h
      · exact hm
    · exact fun hm => Or.inr ⟨hm, h⟩

theorem get_erase (t : Table K V) (k k' : K) : (t.erase k).get k' = if k' = k then none else t.get k' := by
  split
  · rename_i h
    exact get_eq_none.mpr fun r hr => by rw [h]; exact (mem_erase.mp hr).2
  · rename_i h
    refine Option.ext fun u => ?_
    rw [← mem_rows, ← mem_rows, mem_erase]
    exact ⟨fun hm => hm.1, fun hm => ⟨hm, h⟩⟩

theorem get_restrict (t : Table K V) (keep : K → Bool) (k : K) : (t.restrict keep).get k = if keep k then t.get k else none := by
  split
  · rename_i h
    refine Option.ext fun u => ?_
    rw [← mem_rows, ← mem_rows]
    exact ⟨fun hm => (List.mem_filter.mp hm).1, fun hm => List.mem_filter.mpr ⟨hm, h⟩⟩
  · rename_i h
    refine get_eq_none.mpr fun r hr e => h ?_
    rw [← e]
    exact (List.mem_filter.mp hr).2

@[simp] theorem get_insert_self (t : Table K V) (k : K) (v : V) : (t.insert k v).get k = some v := by
  simp [get_insert]

@[simp] theorem get_erase_self (t : Table K V) (k : K) : (t.erase k).get k = none := by simp [get_erase]

theorem get_insert_ne (t : Table K V) {k k' : K} (v : V) (h : k' ≠ k) : (t.insert k v).get k' = t.get k' := by
  simp [get_insert, h]

theorem get_erase_ne (t : Table K V) {k k' : K} (h : k' ≠ k) : (t.erase k).get k' = t.get k' := by
  simp [get_erase, h]

theorem erase_of_none {t : Table K V} {k : K} (h : t.get k = none) : t.erase k = t := by
  have hrows : t.rows.filter (fun r => r.1 ≠ k) = t.rows :=
    List.filter_eq_self.mpr fun r hr => decide_eq_true (get_eq_none.mp h r hr)
  unfold erase
  cases t
  simp only at hrows
  simp only [hrows]

/-! ## Rows in any order -/

theorem eq_of_rows {t t' : Table K V} (h : ∀ r, r ∈ t.rows ↔ r ∈ t'.rows) : t = t' := by
  have hrows : t.rows = t'.rows := t.sorted.eq_of_mem_iff t'.sorted h
  cases t
  cases t'
  congr

/-- Rows with distinct keys are all inserted. -/
theorem mem_foldl_insert {rows : List (K × V)} (hkeys : (rows.map (·.1)).Nodup) {t : Table K V} {r : K × V} :
    r ∈ (rows.foldl (fun t r => t.insert r.1 r.2) t).rows ↔ r ∈ rows ∨ r ∈ t.rows ∧ r.1 ∉ rows.map (·.1) := by
  induction rows generalizing t with
  | nil => simp
  | cons x rows ih =>
    rw [List.map_cons, List.nodup_cons] at hkeys
    rw [List.foldl_cons, ih hkeys.2, mem_insert, List.mem_cons, List.map_cons, List.mem_cons, not_or]
    constructor
    · intro h
      rcases h with h | ⟨h | ⟨h, hne⟩, hn⟩
      · exact Or.inl (Or.inr h)
      · exact Or.inl (Or.inl h)
      · exact Or.inr ⟨h, hne, hn⟩
    · intro h
      rcases h with (rfl | h) | ⟨h, hne, hn⟩
      · exact Or.inr ⟨Or.inl rfl, hkeys.1⟩
      · exact Or.inl h
      · exact Or.inr ⟨Or.inr ⟨h, hne⟩, hn⟩

/-- A table's rows, in any order, make the table. -/
theorem foldl_insert_perm {t : Table K V} {rows : List (K × V)} (h : rows.Perm t.rows) :
    rows.foldl (fun t r => t.insert r.1 r.2) empty = t := by
  have hkeys : (rows.map (·.1)).Nodup := by
    rw [(h.map (·.1)).nodup_iff]
    exact List.pairwise_map.mpr (t.sorted.imp fun h => h.ne)
  apply eq_of_rows
  intro r
  rw [mem_foldl_insert hkeys, h.mem_iff]
  simp [empty]

/-! ## Sums over the rows -/

/-- The sum of a weight over the rows' values. -/
def sumBy (f : V → Nat) (t : Table K V) : Nat := (t.rows.map fun r => f r.2).sum

@[simp] theorem sumBy_empty (f : V → Nat) : (empty : Table K V).sumBy f = 0 := rfl

theorem filter_ne_sum (f : V → Nat) (k : K) {l : List (K × V)} (hl : l.Pairwise fun a b => a.1 < b.1) :
    ((l.filter fun r => r.1 ≠ k).map fun r => f r.2).sum + (((l.find? fun r => r.1 = k).map (·.2)).map f).getD 0 =
      (l.map fun r => f r.2).sum := by
  induction l with
  | nil => rfl
  | cons x l ih =>
    obtain ⟨hx, hl⟩ := List.pairwise_cons.mp hl
    by_cases h : x.1 = k
    · have hrest : l.filter (fun r => r.1 ≠ k) = l :=
        List.filter_eq_self.mpr fun y hy => by simpa [← h] using (hx y hy).ne'
      simp only [List.filter_cons, h, ne_eq, not_true, decide_false, Bool.false_eq_true, if_false, List.find?_cons,
        decide_true, Option.map_some, Option.getD_some, List.map_cons, List.sum_cons]
      simp only [ne_eq] at hrest
      rw [hrest]; omega
    · have := ih hl
      simp only [List.filter_cons, ne_eq, h, not_false_iff, decide_true, if_true, List.map_cons, List.sum_cons,
        List.find?_cons, decide_false] at this ⊢
      omega

theorem sumBy_erase (f : V → Nat) (t : Table K V) (k : K) :
    (t.erase k).sumBy f + ((t.get k).map f).getD 0 = t.sumBy f := filter_ne_sum f k t.sorted

theorem insertRow_sum (f : V → Nat) (k : K) (v : V) {l : List (K × V)} (hl : l.Pairwise fun a b => a.1 < b.1) :
    ((insertRow k v l).map fun r => f r.2).sum = ((l.filter fun r => r.1 ≠ k).map fun r => f r.2).sum + f v := by
  induction l with
  | nil => simp [insertRow]
  | cons x l ih =>
    obtain ⟨hx, hl⟩ := List.pairwise_cons.mp hl
    simp only [insertRow]
    split
    · rename_i hk
      have hne : ∀ y ∈ x :: l, y.1 ≠ k := by
        intro y hy e
        rcases List.mem_cons.mp hy with rfl | hy
        · exact absurd hk (by simp [e])
        · exact absurd (lt_trans hk (hx y hy)) (by simp [e])
      rw [List.filter_eq_self.mpr fun y hy => by simpa using hne y hy, List.map_cons, List.sum_cons, Nat.add_comm]
    · split
      · rename_i hk
        have hrest : l.filter (fun r => r.1 ≠ k) = l :=
          List.filter_eq_self.mpr fun y hy => by simpa [hk] using (hx y hy).ne'
        rw [List.filter_cons, hrest]
        simp only [hk, ne_eq, not_true, decide_false, Bool.false_eq_true, if_false, List.map_cons, List.sum_cons]
        omega
      · rename_i hk
        have hk' : x.1 ≠ k := Ne.symm hk
        rw [List.filter_cons]
        simp only [ne_eq, hk', not_false_iff, decide_true, if_true, List.map_cons, List.sum_cons, ih hl]
        omega

theorem sumBy_insert (f : V → Nat) (t : Table K V) (k : K) (v : V) :
    (t.insert k v).sumBy f + ((t.get k).map f).getD 0 = t.sumBy f + f v := by
  have h1 : (t.insert k v).sumBy f = (t.erase k).sumBy f + f v := insertRow_sum f k v t.sorted
  have h2 := sumBy_erase f t k
  omega

/-- A row's weight is at most the sum. -/
theorem le_sumBy (f : V → Nat) {t : Table K V} {r : K × V} (h : r ∈ t.rows) : f r.2 ≤ t.sumBy f := by
  have := sumBy_erase f t r.1
  rw [get_of_mem h] at this
  simp only [Option.map_some, Option.getD_some] at this
  omega

theorem sumBy_pos (f : V → Nat) {t : Table K V} : 0 < t.sumBy f ↔ ∃ r ∈ t.rows, 0 < f r.2 := by
  simp [sumBy, List.sum_pos_iff_exists_pos_nat]

end Table

end S3lite
