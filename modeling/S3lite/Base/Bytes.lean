/-
  S3lite.Base.Bytes — byte strings under the lexicographic order, and words written
  with a terminator below all their letters.

  A word `x` is written `x ++ z :: s`: its letters, the terminator `z`, and a suffix
  `s`. When every letter is above the terminator (`Clear z x`):
  - `word_lt_word_iff`: written words are ordered by the word, then by the suffix.
  - `word_injective`: a written word gives back the word and the suffix.
  - `next_le_word_iff`: the point `y ++ [z']`, for the letter `z'` right after the
    terminator, lies right after every written `y`.
  - `eq_word_of_next_le`: for any other `y`, only its own first word may be past that point too.
  - `word_range_iff`: the words written `y` are those between `y ++ [z]` and `y ++ [z']`.
  - `skip_le_word_iff`: the point `p ++ [d]`, for the letter `d` right after `c`, lies
    right after everything written that starts with `p ++ [c]`.
  Prefixes are convex (`prefix_of_between`): what lies between two words with a common
  prefix has that prefix.
-/
import Mathlib

namespace S3lite

abbrev Bytes := List UInt8

instance instLinearOrderUInt8 : LinearOrder UInt8 where
  le := (· ≤ ·)
  lt := (· < ·)
  le_refl := UInt8.le_refl
  le_trans _ _ _ := UInt8.le_trans
  lt_iff_le_not_ge a b := by simp only [UInt8.lt_iff_toNat_lt, UInt8.le_iff_toNat_le]; omega
  le_antisymm _ _ := UInt8.le_antisymm
  le_total := UInt8.le_total
  toDecidableLE := inferInstance
  toDecidableLT := inferInstance
  toDecidableEq := inferInstance

/-- Decided along the string, not over all the bytes there are. -/
instance (priority := high) instDecidableForallByte {p : UInt8 → Prop} [DecidablePred p] (s : Bytes) :
    Decidable (∀ c ∈ s, p c) :=
  @List.decidableBAll UInt8 p _ s

namespace Word

variable {α : Type} [LinearOrder α]

/-! ## Prefixes -/

theorem append_lt_append_iff (p a b : List α) : p ++ a < p ++ b ↔ a < b := by
  induction p with
  | nil => rfl
  | cons x p ih => simpa [List.cons_lt_cons_iff] using ih

theorem le_append (p a : List α) : p ≤ p ++ a := by
  rw [← not_lt]
  induction p with
  | nil => simp
  | cons x p ih => simpa [List.cons_lt_cons_iff] using ih

theorem le_of_prefix {p a : List α} (h : p <+: a) : p ≤ a := by
  obtain ⟨t, rfl⟩ := h
  exact le_append p t

/-- What lies between two words with a common prefix has that prefix. -/
theorem prefix_of_between {p a x b : List α} (ha : p <+: a) (hb : p <+: b) (h1 : a ≤ x) (h2 : x ≤ b) : p <+: x := by
  induction p generalizing a x b with
  | nil => exact List.nil_prefix
  | cons c p ih =>
    obtain ⟨s, rfl⟩ := ha
    obtain ⟨t, rfl⟩ := hb
    cases x with
    | nil => exact absurd h1 (by simp [← not_lt])
    | cons d x =>
      rw [← not_lt] at h1 h2
      simp only [List.cons_append, List.cons_lt_cons_iff, not_or, not_and, not_lt] at h1 h2
      obtain rfl : c = d := le_antisymm h1.1 h2.1
      exact List.cons_prefix_cons.mpr
        ⟨rfl, ih (List.prefix_append p s) (List.prefix_append p t) (h1.2 rfl) (h2.2 rfl)⟩

/-! ## Written words -/

/-- Every letter of the word is above the terminator. -/
def Clear (z : α) (x : List α) : Prop := ∀ c ∈ x, z < c

theorem Clear.head {z c : α} {x : List α} (h : Clear z (c :: x)) : z < c := h c (List.mem_cons_self ..)

theorem Clear.tail {z c : α} {x : List α} (h : Clear z (c :: x)) : Clear z x :=
  fun d hd => h d (List.mem_cons_of_mem _ hd)

theorem word_lt_word_iff {z : α} {x y s t : List α} (hx : Clear z x) (hy : Clear z y) :
    x ++ z :: s < y ++ z :: t ↔ x < y ∨ x = y ∧ s < t := by
  induction x generalizing y with
  | nil =>
    cases y with
    | nil => simp
    | cons d y => simp [List.cons_lt_cons_iff, hy.head]
  | cons c x ih =>
    cases y with
    | nil => simp [List.cons_lt_cons_iff, not_lt_of_gt hx.head, hx.head.ne']
    | cons d y =>
      simp only [List.cons_append, List.cons_lt_cons_iff, ih hx.tail hy.tail, List.cons.injEq]
      tauto

theorem word_injective {z : α} {x y s t : List α} (hx : Clear z x) (hy : Clear z y)
    (h : x ++ z :: s = y ++ z :: t) : x = y ∧ s = t := by
  have h1 := (word_lt_word_iff (s := s) (t := t) hx hy).not.mp (by rw [h]; exact lt_irrefl _)
  have h2 := (word_lt_word_iff (s := t) (t := s) hy hx).not.mp (by rw [h]; exact lt_irrefl _)
  simp only [not_or, not_lt, not_and] at h1 h2
  have e : x = y := le_antisymm h2.1 h1.1
  exact ⟨e, le_antisymm (h2.2 e.symm) (h1.2 e)⟩

/-- A clear point lies at or before a written word exactly when it lies at or before the
    word. -/
theorem le_word_iff {z : α} {p x s : List α} (hp : Clear z p) : p ≤ x ++ z :: s ↔ p ≤ x := by
  simp only [← not_lt, not_iff_not]
  induction p generalizing x with
  | nil => simp
  | cons c p ih =>
    cases x with
    | nil => simp [List.cons_lt_cons_iff, hp.head]
    | cons d x => simp [List.cons_lt_cons_iff, ih hp.tail]

/-- `y ++ [z']` lies right after every written `y`: a written word is past it exactly
    when its word is greater than `y`. -/
theorem next_le_word_iff {z z' : α} (hz : ∀ c, z < c ↔ z' ≤ c) {x y s : List α} (hx : Clear z x) (hy : Clear z y) :
    y ++ [z'] ≤ x ++ z :: s ↔ y < x := by
  have hzz : z < z' := (hz z').mpr le_rfl
  rw [← not_lt, ← not_iff_not, not_not]
  induction y generalizing x with
  | nil =>
    cases x with
    | nil => simp [List.cons_lt_cons_iff, hzz]
    | cons c x => simp [List.cons_lt_cons_iff, (hz c).mp hx.head]
  | cons d y ih =>
    cases x with
    | nil => simp [List.cons_lt_cons_iff, hy.head]
    | cons c x =>
      simp only [List.cons_append, List.cons_lt_cons_iff, ih hx.tail hy.tail]
      rcases lt_trichotomy c d with h | rfl | h
      · simp [h, not_lt_of_gt h, h.ne']
      · simp
      · simp [h, not_lt_of_gt h, h.ne']

/-- Between `b ++ z :: s` and `b ++ [z']` lie the words written `b`, with their suffix from
    `s` on. -/
theorem word_range_iff {z z' : α} (hz : ∀ c, z < c ↔ z' ≤ c) {b x s t : List α} (hb : Clear z b) (hx : Clear z x) :
    b ++ z :: s ≤ x ++ z :: t ∧ x ++ z :: t < b ++ [z'] ↔ x = b ∧ s ≤ t := by
  rw [← not_le (a := b ++ [z']), next_le_word_iff hz hx hb, ← not_lt, word_lt_word_iff hx hb, not_or, not_and]
  constructor
  · rintro ⟨⟨h1, h2⟩, h3⟩
    have e : x = b := le_antisymm (not_lt.mp h3) (not_lt.mp h1)
    exact ⟨e, not_lt.mp (h2 e)⟩
  · rintro ⟨rfl, h⟩
    exact ⟨⟨lt_irrefl _, fun _ => not_lt.mpr h⟩, lt_irrefl _⟩

/-- A clear prefix of a written word is a prefix of the word. -/
theorem prefix_word_iff {z : α} {p x s : List α} (hp : Clear z p) : p <+: x ++ z :: s ↔ p <+: x := by
  constructor
  · induction p generalizing x with
    | nil => simp
    | cons c p ih =>
      intro h
      cases x with
      | nil =>
        obtain ⟨rfl, -⟩ := List.cons_prefix_cons.mp h
        exact absurd hp.head (lt_irrefl _)
      | cons d x =>
        obtain ⟨rfl, h'⟩ := List.cons_prefix_cons.mp h
        exact List.cons_prefix_cons.mpr ⟨rfl, ih hp.tail h'⟩
  · exact fun h => h.trans (List.prefix_append _ _)

theorem Clear.of_prefix {z : α} {p x : List α} (hx : Clear z x) (h : p <+: x) : Clear z p :=
  fun c hc => hx c (h.subset hc)

/-- With `d` the letter right after `c`, the point `p ++ [d]` lies right after every
    written word that starts with `p ++ [c]`. -/
theorem skip_le_word_iff {z c d : α} (hd : ∀ e, c < e ↔ d ≤ e) (hz : z < c) {p x s : List α} (hp : Clear z p) :
    p ++ [d] ≤ x ++ z :: s ↔ p ++ [c] < x ∧ ¬ p ++ [c] <+: x := by
  have hcd : c < d := (hd d).mpr le_rfl
  have hpd : Clear z (p ++ [d]) := by
    intro e he
    rcases List.mem_append.mp he with he | he
    · exact hp e he
    · rw [List.mem_singleton.mp he]; exact lt_trans hz hcd
  rw [le_word_iff hpd]
  constructor
  · intro h
    have hlt : p ++ [c] < p ++ [d] := by rw [append_lt_append_iff]; simpa [List.cons_lt_cons_iff] using hcd
    refine ⟨lt_of_lt_of_le hlt h, ?_⟩
    rintro ⟨t, rfl⟩
    rw [List.append_assoc, ← not_lt, append_lt_append_iff] at h
    simp [List.cons_lt_cons_iff, hcd] at h
  · rintro ⟨h, hn⟩
    by_contra hx
    rw [not_le] at hx
    -- the word is between `p ++ [c]` and `p ++ [d]`, so it starts with `p` and its next letter is `c`
    obtain ⟨t, rfl⟩ := prefix_of_between (List.prefix_append p [c]) (List.prefix_append p [d]) h.le hx.le
    rw [append_lt_append_iff] at h hx
    cases t with
    | nil => simp at h
    | cons e t =>
      simp only [List.cons_lt_cons_iff, List.not_lt_nil, and_false, or_false] at h hx
      have hec : e = c := by
        rcases h with h | ⟨h, -⟩
        · exact absurd hx (not_lt.mpr ((hd e).mp h))
        · exact h.symm
      subst hec
      exact hn ⟨t, by simp⟩

/-- A written word that lies past a string, but whose word does not, is the string's first. -/
theorem eq_word_of_next_le {z z' : α} (hmin : ∀ c, z ≤ c) (hzz : z < z') {x y s : List α}
    (hx : Clear z x) (hle : x ≤ y) (h : y ++ [z'] ≤ x ++ z :: s) : ∃ t, y = x ++ z :: t := by
  induction x generalizing y with
  | nil =>
    cases y with
    | nil => exact absurd h (by simp [← not_lt, List.cons_lt_cons_iff, hzz])
    | cons d y =>
      rw [List.nil_append, List.cons_append, ← not_lt, List.cons_lt_cons_iff, not_or, not_lt] at h
      have hd : d = z := le_antisymm h.1 (hmin d)
      exact ⟨y, by rw [hd]; rfl⟩
  | cons c x ih =>
    cases y with
    | nil => exact absurd (List.nil_lt_cons c x) (not_lt.mpr hle)
    | cons d y =>
      rw [← not_lt, List.cons_lt_cons_iff, not_or, not_lt] at hle
      rw [List.cons_append, List.cons_append, ← not_lt, List.cons_lt_cons_iff, not_or, not_lt] at h
      obtain rfl : c = d := le_antisymm hle.1 h.1
      obtain ⟨t, ht⟩ := ih hx.tail (not_lt.mp fun hlt => hle.2 ⟨rfl, hlt⟩) (not_lt.mp fun hlt => h.2 ⟨rfl, hlt⟩)
      exact ⟨t, by rw [ht]; rfl⟩

end Word

end S3lite
