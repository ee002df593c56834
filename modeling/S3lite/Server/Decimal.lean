/-
  S3lite.Server.Decimal — numbers in messages and headers, in decimal.

  - `natStr_digits`: they are digits, at least one.
  - `parseUnsigned_natStr`, `parseUnsigned_lt`: `str::parse` reads them back, and nothing past
    its type.
-/
import S3lite.Server.Handler

namespace S3lite

theorem str_toString (n : Nat) : str (toString n) = (Nat.toDigits 10 n).flatMap String.utf8EncodeChar := by
  unfold str
  simp [toString, Nat.repr, List.utf8Encode]

theorem natStr_digit {n : Nat} (h : n < 10) : natStr n = [UInt8.ofNat (48 + n)] := by
  have hall : ∀ n < 10, natStr n = [UInt8.ofNat (48 + n)] := by decide
  exact hall n h

theorem natStr_append {n : Nat} (h : 10 ≤ n) : natStr n = natStr (n / 10) ++ natStr (n % 10) := by
  have hdigit : Nat.toDigits 10 (n % 10) = [Nat.digitChar (n % 10)] := Nat.toDigits_of_lt_base (Nat.mod_lt _ (by decide))
  simp only [natStr, str_toString]
  rw [Nat.toDigits_of_base_le (by decide) h, List.flatMap_append, hdigit]

theorem natStr_digits (n : Nat) : natStr n ≠ [] ∧ ∀ c ∈ natStr n, 48 ≤ c ∧ c ≤ 57 := by
  have hdigit : ∀ n < 10, natStr n ≠ [] ∧ ∀ c ∈ natStr n, 48 ≤ c ∧ c ≤ 57 := by decide
  induction n using Nat.strongRecOn with
  | ind n ih =>
    by_cases h : n < 10
    · exact hdigit n h
    · rw [natStr_append (by omega)]
      obtain ⟨hne, hrest⟩ := ih (n / 10) (by omega)
      refine ⟨List.append_ne_nil_of_left_ne_nil hne _, fun c hc => ?_⟩
      rcases List.mem_append.mp hc with hc | hc
      · exact hrest c hc
      · exact (hdigit (n % 10) (Nat.mod_lt _ (by decide))).2 c hc

/-- A decimal is read back. -/
theorem parseUnsigned_natStr {bound n : Nat} (hn : n < bound) : parseUnsigned bound (natStr n) = some n := by
  have hfold : ∀ n, n < bound → (natStr n).foldl (fun acc c => acc.bind fun n =>
      if 48 ≤ c ∧ c ≤ 57 then
        let n := 10 * n + (c.toNat - 48)
        if n < bound then some n else none
      else none) (some 0) = some n := by
    intro n
    have hstep : ∀ d < 10, 48 ≤ UInt8.ofNat (48 + d) ∧ UInt8.ofNat (48 + d) ≤ 57 ∧ (UInt8.ofNat (48 + d)).toNat - 48 = d := by
      decide
    induction n using Nat.strongRecOn with
    | ind n ih =>
      intro hn
      by_cases h : n < 10
      · obtain ⟨h1, h2, h3⟩ := hstep n h
        rw [natStr_digit h]
        simp only [List.foldl_cons, List.foldl_nil, Option.bind_some, h1, h2, and_self, if_true, h3, Nat.mul_zero, Nat.zero_add, hn]
      · obtain ⟨h1, h2, h3⟩ := hstep (n % 10) (Nat.mod_lt _ (by decide))
        have hval : 10 * (n / 10) + n % 10 = n := Nat.div_add_mod n 10
        rw [natStr_append (by omega), List.foldl_append, ih (n / 10) (by omega) (by omega),
          natStr_digit (Nat.mod_lt _ (by decide))]
        simp only [List.foldl_cons, List.foldl_nil, Option.bind_some, h1, h2, and_self, if_true, h3, hval, hn]
  obtain ⟨hne, hdigits⟩ := natStr_digits n
  unfold parseUnsigned
  split
  · rename_i rest hs
    have := (hdigits 43 (hs ▸ List.mem_cons_self ..)).1
    exact absurd this (by decide)
  · simp only [List.isEmpty_iff, hne, if_false]
    exact hfold n hn

/-- What is read is in the type's range. -/
theorem parseUnsigned_lt {bound n : Nat} {s : Bytes} (h : parseUnsigned bound s = some n) : n < bound := by
  have hfold : ∀ digits : Bytes, (if digits.isEmpty then none else digits.foldl (fun acc c => acc.bind fun n =>
      if 48 ≤ c ∧ c ≤ 57 then
        let n := 10 * n + (c.toNat - 48)
        if n < bound then some n else none
      else none) (some 0)) = some n → n < bound := by
    intro digits h
    rcases List.eq_nil_or_concat digits with rfl | ⟨init, c, rfl⟩
    · cases h
    rw [List.concat_eq_append, if_neg (by simp), List.foldl_concat] at h
    obtain ⟨k, -, h⟩ := Option.bind_eq_some_iff.mp h
    split at h
    · simp only at h
      split at h
      · rename_i hlt
        rw [← Option.some.inj h]
        exact hlt
      · cases h
    · cases h
  exact hfold _ h

end S3lite
