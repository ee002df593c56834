/-
  S3lite.Base.Split — splitting a text at a byte, joining the pieces again, and trimming.

  - `splitOnce_eq_some`, `splitOnce_append`: a split at the first separator, both ways.
  - `splitByte_eq_splitOn`: a split at every separator is the list library's.
  - `pairText_injective`: a name, the separator and a value give back both, as long as the name
    has no separator in it.
  - `trim_visible`: a text of visible characters is left as it is.
-/
import S3lite.Base.Text

namespace S3lite

/-! ## At the first separator -/

theorem splitOnce_append {c : UInt8} {p s : Bytes} (h : c ∉ p) : splitOnce c (p ++ c :: s) = some (p, s) := by
  induction p with
  | nil => simp [splitOnce]
  | cons d p ih =>
    rw [List.mem_cons, not_or] at h
    simp [splitOnce, ih h.2, Ne.symm h.1]

theorem splitOnce_none {c : UInt8} {s : Bytes} (h : c ∉ s) : splitOnce c s = none := by
  induction s with
  | nil => rfl
  | cons d s ih =>
    rw [List.mem_cons, not_or] at h
    simp [splitOnce, ih h.2, Ne.symm h.1]

theorem splitOnce_eq_some {c : UInt8} {s p t : Bytes} (h : splitOnce c s = some (p, t)) : s = p ++ c :: t ∧ c ∉ p := by
  induction s generalizing p with
  | nil => cases h
  | cons d s ih =>
    rw [splitOnce] at h
    by_cases e : d = c
    · rw [if_pos e] at h
      cases h
      exact ⟨by rw [e]; rfl, List.not_mem_nil⟩
    · rw [if_neg e] at h
      obtain ⟨r, hr, hp⟩ := Option.map_eq_some_iff.mp h
      obtain ⟨rfl, rfl⟩ := Prod.mk.injEq .. ▸ hp
      obtain ⟨hs, hn⟩ := ih hr
      exact ⟨by rw [hs]; rfl, fun hc => (List.mem_cons.mp hc).elim (fun h => e h.symm) hn⟩

/-- A text with a separator in it is split there. -/
theorem splitOnce_isSome {c : UInt8} {s : Bytes} : (splitOnce c s).isSome ↔ c ∈ s := by
  constructor
  · intro h
    obtain ⟨r, hr⟩ := Option.isSome_iff_exists.mp h
    rw [(splitOnce_eq_some hr).1]
    exact List.mem_append_right _ (List.mem_cons_self ..)
  · intro h
    obtain ⟨p, t, rfl, hp⟩ := List.eq_append_cons_of_mem h
    rw [splitOnce_append hp]
    rfl

/-- A text starts with one text and ends with another, the two not overlapping, exactly when it
    is the one, a middle and the other. -/
theorem exists_middle {head tail s : Bytes} :
    head <+: s ∧ tail <:+ s ∧ head.length + tail.length ≤ s.length ↔ ∃ w, s = head ++ w ++ tail := by
  constructor
  · intro h
    obtain ⟨⟨r, rfl⟩, hsuffix, hlen⟩ := h
    rw [List.length_append] at hlen
    obtain ⟨w, rfl⟩ := List.suffix_of_suffix_length_le hsuffix (List.suffix_append head r) (by omega)
    exact ⟨w, (List.append_assoc ..).symm⟩
  · intro h
    obtain ⟨w, rfl⟩ := h
    refine ⟨⟨w ++ tail, (List.append_assoc ..).symm⟩, List.suffix_append _ _, ?_⟩
    simp only [List.length_append]
    omega

/-- A name, the separator and a value. -/
def pairText (c : UInt8) (kv : Bytes × Bytes) : Bytes := kv.1 ++ c :: kv.2

theorem pairText_injective {c : UInt8} {kv kv' : Bytes × Bytes} (h : c ∉ kv.1) (h' : c ∉ kv'.1)
    (e : pairText c kv = pairText c kv') : kv = kv' := by
  have hs := congrArg (splitOnce c) e
  unfold pairText at hs
  rw [splitOnce_append h, splitOnce_append h', Option.some.injEq] at hs
  exact hs

/-- A text that ends without the separator is read back from its end. -/
theorem append_cons_injective {c : UInt8} {s s' t t' : Bytes} (h : c ∉ t) (h' : c ∉ t') (e : s ++ c :: t = s' ++ c :: t') :
    s = s' ∧ t = t' := by
  have hrev : pairText c (t.reverse, s.reverse) = pairText c (t'.reverse, s'.reverse) := by
    simpa [pairText] using congrArg List.reverse e
  have hpair := pairText_injective (by simpa using h) (by simpa using h') hrev
  exact ⟨List.reverse_injective (congrArg Prod.snd hpair), List.reverse_injective (congrArg Prod.fst hpair)⟩

/-! ## At every separator -/

theorem splitByte_ne_nil (c : UInt8) (s : Bytes) : splitByte c s ≠ [] := by
  cases s with
  | nil => exact List.cons_ne_nil _ _
  | cons d s =>
    rw [splitByte]
    split
    · exact List.cons_ne_nil _ _
    · split <;> exact List.cons_ne_nil _ _

theorem splitByte_eq_splitOn (c : UInt8) (s : Bytes) : splitByte c s = s.splitOn c := by
  induction s with
  | nil => rfl
  | cons d s ih =>
    rw [splitByte, List.splitOn_cons_eq_if_modifyHead, ← ih]
    cases hs : splitByte c s with
    | nil => exact absurd hs (splitByte_ne_nil c s)
    | cons p ps => by_cases h : d = c <;> simp [h]

theorem splitByte_none {c : UInt8} {s : Bytes} (h : c ∉ s) : splitByte c s = [s] := by
  rw [splitByte_eq_splitOn, List.splitOn_eq_singleton h]

theorem splitByte_intercalate {c : UInt8} {l : List Bytes} (hl : l ≠ []) (h : ∀ p ∈ l, c ∉ p) :
    splitByte c ([c].intercalate l) = l := by
  rw [splitByte_eq_splitOn, List.splitOn_intercalate c h hl]

theorem intercalate_splitByte (c : UInt8) (s : Bytes) : [c].intercalate (splitByte c s) = s := by
  rw [splitByte_eq_splitOn, List.intercalate_splitOn]

theorem not_mem_of_mem_splitByte {c : UInt8} {s p : Bytes} (h : p ∈ splitByte c s) : c ∉ p := by
  induction s generalizing p with
  | nil =>
    rw [List.mem_singleton.mp h]
    exact List.not_mem_nil
  | cons d s ih =>
    rw [splitByte] at h
    cases hs : splitByte c s with
    | nil => exact absurd hs (splitByte_ne_nil c s)
    | cons q qs =>
      rw [hs] at h ih
      by_cases hd : d = c
      · simp only [hd, if_true] at h
        rcases List.mem_cons.mp h with rfl | h
        · exact List.not_mem_nil
        · exact ih h
      · simp only [hd, if_false] at h
        rcases List.mem_cons.mp h with rfl | h
        · exact fun hc => (List.mem_cons.mp hc).elim (fun e => hd e.symm) (ih (List.mem_cons_self ..))
        · exact ih (List.mem_cons_of_mem _ h)

/-- What is in a joined text is in the separator or in a piece. -/
theorem mem_intercalate {sep : Bytes} {l : List Bytes} {c : UInt8} (h : c ∈ sep.intercalate l) : c ∈ sep ∨ ∃ p ∈ l, c ∈ p := by
  induction l with
  | nil => cases h
  | cons a l ih =>
    cases l with
    | nil =>
      rw [List.intercalate_singleton] at h
      exact Or.inr ⟨a, List.mem_singleton_self a, h⟩
    | cons b l =>
      rw [List.intercalate_cons_cons, List.mem_append, List.mem_append] at h
      rcases h with (h | h) | h
      · exact Or.inr ⟨a, List.mem_cons_self .., h⟩
      · exact Or.inl h
      · rcases ih h with h | ⟨p, hp, hc⟩
        · exact Or.inl h
        · exact Or.inr ⟨p, List.mem_cons_of_mem a hp, hc⟩

/-- Joined pieces without a separator in them give back the pieces, unless there may be none:
    no piece and one empty piece are the same text. -/
theorem intercalate_injective {c : UInt8} {l l' : List Bytes} (h : ∀ p ∈ l, c ∉ p ∧ p ≠ []) (h' : ∀ p ∈ l', c ∉ p ∧ p ≠ [])
    (e : [c].intercalate l = [c].intercalate l') : l = l' := by
  have hnil : ∀ {l : List Bytes}, (∀ p ∈ l, c ∉ p ∧ p ≠ []) → [c].intercalate l = [] → l = [] := by
    intro l h e
    cases l with
    | nil => rfl
    | cons p ps =>
      have hs := splitByte_intercalate (List.cons_ne_nil p ps) fun q hq => (h q hq).1
      rw [e] at hs
      cases hs
      exact absurd rfl (h [] (List.mem_cons_self ..)).2
  by_cases hl : l = []
  · subst hl
    exact (hnil h' e.symm).symm
  · by_cases hl' : l' = []
    · subst hl'
      exact hnil h e
    · rw [← splitByte_intercalate hl fun p hp => (h p hp).1, e, splitByte_intercalate hl' fun p hp => (h' p hp).1]

/-! ## Trimming -/

theorem dropLeading_none {pats : List Bytes} {n : Nat} {s : Bytes} (h : ∀ p ∈ pats, ¬ p <+: s) : dropLeading pats n s = s := by
  cases n with
  | zero => rfl
  | succ n =>
    have hnone : pats.findSome? (fun p => stripPrefix p s) = none := by
      rw [List.findSome?_eq_none_iff]
      intro p hp
      exact if_neg (h p hp)
    unfold dropLeading
    rw [hnone]

theorem mem_dropLeading {pats : List Bytes} {n : Nat} {s : Bytes} {b : UInt8} (h : b ∈ dropLeading pats n s) : b ∈ s := by
  induction n generalizing s with
  | zero => exact h
  | succ n ih =>
    rw [dropLeading] at h
    cases hf : pats.findSome? fun p => stripPrefix p s with
    | none => rwa [hf] at h
    | some rest =>
      rw [hf] at h
      obtain ⟨p, -, hp⟩ := List.exists_of_findSome?_eq_some hf
      unfold stripPrefix at hp
      split at hp
      · cases hp
        exact List.mem_of_mem_drop (ih h)
      · cases hp

theorem mem_trim {s : Bytes} {b : UInt8} (h : b ∈ trim s) : b ∈ s :=
  mem_dropLeading (List.mem_reverse.mp (mem_dropLeading (List.mem_reverse.mp h)))

/-- No white space starts, or ends, with a visible character. -/
theorem trim_visible {s : Bytes} (h : ∀ b ∈ s, 32 < b ∧ b < 127) : trim s = s := by
  have hnot : ∀ {pats : List Bytes}, (∀ p ∈ pats, ∃ c q, p = c :: q ∧ ¬ (32 < c ∧ c < 127)) → ∀ {t : Bytes},
      (∀ b ∈ t, 32 < b ∧ b < 127) → ∀ n, dropLeading pats n t = t := by
    intro pats hpats t ht n
    refine dropLeading_none fun p hp hpre => ?_
    obtain ⟨c, q, rfl, hc⟩ := hpats p hp
    exact hc (ht c (hpre.subset (List.mem_cons_self ..)))
  have hhead : ∀ {pats : List Bytes}, (pats.all fun p => p.head?.any fun c => !(decide (32 < c) && decide (c < 127))) = true →
      ∀ p ∈ pats, ∃ c q, p = c :: q ∧ ¬ (32 < c ∧ c < 127) := by
    intro pats hpats p hp
    have hp := List.all_eq_true.mp hpats p hp
    cases p with
    | nil => cases hp
    | cons c q =>
      refine ⟨c, q, rfl, fun hc => ?_⟩
      simp [hc] at hp
  unfold trim
  simp only
  rw [hnot (hhead (by decide)) h, hnot (hhead (by decide)) (fun b hb => h b (List.mem_reverse.mp hb)), List.reverse_reverse]

end S3lite
