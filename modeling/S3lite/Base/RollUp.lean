/-
  S3lite.Base.RollUp — words rolled up into blocks of a common prefix.

  A roll-up gives some words a block: a prefix of the word that every word starting with
  it is given too (`RollUp`). A word's name is its block, or the word itself.
  - `name_lt`: names follow the order of the words, and words of one name are those of one
    block; so a sorted list of words meets its blocks one after the other.
  - `past_name_iff_of_none` / `past_name_iff_of_block`: what lies past a name is what lies past the word, or past every word
    that starts with the block.
-/
import S3lite.Base.Bytes

namespace S3lite

/-- A roll-up: each word's block, if it has one. -/
structure RollUp (α : Type) where
  block : List α → Option (List α)
  block_pre : ∀ k p, block k = some p → p <+: k
  block_stable : ∀ k p, block k = some p → ∀ k', p <+: k' → block k' = some p

namespace RollUp

variable {α : Type} (ρ : RollUp α)

/-- The name a word is listed under. -/
def name (k : List α) : List α := (ρ.block k).getD k

theorem name_of_block {k p : List α} (h : ρ.block k = some p) : ρ.name k = p := by simp [name, h]

theorem name_of_none {k : List α} (h : ρ.block k = none) : ρ.name k = k := by simp [name, h]

theorem name_prefix (k : List α) : ρ.name k <+: k := by
  cases h : ρ.block k with
  | none => rw [ρ.name_of_none h]
  | some p => rw [ρ.name_of_block h]; exact ρ.block_pre k p h

variable [LinearOrder α]

theorem name_le (k : List α) : ρ.name k ≤ k := Word.le_of_prefix (ρ.name_prefix k)

/-- The next word outside the block has a greater name. -/
theorem name_lt {k k' : List α} (hlt : k < k') (hout : ∀ p, ρ.block k = some p → ¬ p <+: k') : ρ.name k < ρ.name k' := by
  by_contra hge
  rw [not_lt] at hge
  cases hk' : ρ.block k' with
  | none =>
    rw [ρ.name_of_none hk'] at hge
    exact absurd (lt_of_le_of_lt (hge.trans (ρ.name_le k)) hlt) (lt_irrefl _)
  | some p' =>
    rw [ρ.name_of_block hk'] at hge
    -- `k` lies between the block of `k'` and `k'`, so it is in that block
    have hp' := ρ.block_pre k' p' hk'
    have hin : p' <+: k := Word.prefix_of_between (List.prefix_refl p') hp' (hge.trans (ρ.name_le k)) hlt.le
    exact hout p' (ρ.block_stable k' p' hk' k hin) hp'

/-- What lies past the name of a word outside every block lies past the word. -/
theorem past_name_iff_of_none {k k' : List α} (h : ρ.block k = none) : ρ.name k < ρ.name k' ↔ k < k' := by
  constructor
  · intro hlt
    rw [ρ.name_of_none h] at hlt
    exact lt_of_lt_of_le hlt (ρ.name_le k')
  · intro hlt
    exact ρ.name_lt hlt (by simp [h])

/-- What lies past a block lies past every word that starts with it. -/
theorem past_name_iff_of_block {k k' p : List α} (h : ρ.block k = some p) :
    ρ.name k < ρ.name k' ↔ p < k' ∧ ¬ p <+: k' := by
  rw [ρ.name_of_block h]
  have hblock : ∀ q, p <+: q → ρ.block q = some p := ρ.block_stable k p h
  constructor
  · intro hlt
    refine ⟨lt_of_lt_of_le hlt (ρ.name_le k'), ?_⟩
    intro hin
    rw [ρ.name_of_block (hblock k' hin)] at hlt
    exact lt_irrefl _ hlt
  · rintro ⟨hlt, hout⟩
    have hp := hblock p (List.prefix_refl p)
    rw [← ρ.name_of_block hp]
    refine ρ.name_lt hlt ?_
    intro q hq
    rw [hp] at hq
    cases hq
    exact hout

end RollUp

end S3lite
