/-
  S3lite.Base.Encoding — percent encoding and UTF-8: decoding gives back what was encoded.

  - `percentBytes_percentEncode`: the bytes an encoded string stands for, whichever bytes were
    left as they are, as long as `%` was not (nor `+`, where it stands for a space).
  - `fromUtf8Lossy_utf8`: lossy decoding leaves the encoding of characters as it is.
-/
import S3lite.Base.Text

namespace S3lite

/-! ## Percent encoding -/

def hexUpperDigit (n : Nat) : UInt8 := if n < 10 then UInt8.ofNat (48 + n) else UInt8.ofNat (55 + n)

/-- All but the safe bytes as `%XX`. -/
def percentEncode (safe : UInt8 → Bool) (s : Bytes) : Bytes :=
  s.flatMap fun b => if safe b then [b] else [37, hexUpperDigit (b.toNat / 16), hexUpperDigit (b.toNat % 16)]

theorem hexNibble_hexUpperDigit : ∀ n, n < 16 → hexNibble (hexUpperDigit n) = some (UInt8.ofNat n) := by decide

/-- A byte's two digits give it back. -/
theorem byte_of_digits (b : UInt8) : UInt8.ofNat (b.toNat / 16) * 16 + UInt8.ofNat (b.toNat % 16) = b := by
  have hlt : b.toNat < 256 := b.toNat_lt
  apply UInt8.toNat_inj.mp
  simp only [UInt8.toNat_add, UInt8.toNat_mul, UInt8.toNat_ofNat']
  show (b.toNat / 16 % 256 * 16 % 256 + b.toNat % 16 % 256) % 256 = b.toNat
  omega

theorem percentBytes_cons {plus : Bool} {b : UInt8} (h : b ≠ 37) (s : Bytes) :
    percentBytes plus (b :: s) = (if plus && b == 43 then 32 else b) :: percentBytes plus s := by
  rw [percentBytes]
  intro hi lo t he
  exact absurd he h

theorem percentBytes_percentEncode {plus : Bool} {safe : UInt8 → Bool} (h37 : safe 37 = false)
    (h43 : plus = true → safe 43 = false) (s : Bytes) : percentBytes plus (percentEncode safe s) = s := by
  induction s with
  | nil => rfl
  | cons b s ih =>
    rw [percentEncode, List.flatMap_cons, ← percentEncode]
    by_cases hb : safe b = true
    · rw [if_pos hb]
      have hne : b ≠ 37 := fun e => by rw [e, h37] at hb; cases hb
      have hplus : (plus && b == 43) = false := by
        cases plus with
        | false => rfl
        | true =>
          have hne : b ≠ 43 := fun e => by rw [e, h43 rfl] at hb; cases hb
          simpa using hne
      show percentBytes plus (b :: percentEncode safe s) = b :: s
      rw [percentBytes_cons hne, hplus, ih]
      rfl
    · rw [if_neg hb]
      have hlt : b.toNat < 256 := b.toNat_lt
      have hhi := hexNibble_hexUpperDigit (b.toNat / 16) (by omega)
      have hlo := hexNibble_hexUpperDigit (b.toNat % 16) (by omega)
      show percentBytes plus (37 :: hexUpperDigit _ :: hexUpperDigit _ :: percentEncode safe s) = b :: s
      rw [percentBytes, hhi, hlo, ih]
      simp only [byte_of_digits]

/-- Nothing is encoded exactly when everything is safe. -/
theorem percentEncode_eq_self {safe : UInt8 → Bool} {s : Bytes} : percentEncode safe s = s ↔ ∀ b ∈ s, safe b = true := by
  have hlen : ∀ s : Bytes, s.length ≤ (percentEncode safe s).length := by
    intro s
    induction s with
    | nil => exact le_rfl
    | cons b s ih =>
      rw [percentEncode, List.flatMap_cons, ← percentEncode, List.length_append]
      split <;> simp only [List.length_cons, List.length_nil] <;> omega
  induction s with
  | nil => simp [percentEncode]
  | cons b s ih =>
    rw [percentEncode, List.flatMap_cons, ← percentEncode]
    by_cases hb : safe b = true
    · rw [if_pos hb]
      simpa [hb] using ih
    · rw [if_neg hb]
      have hne : [37, hexUpperDigit (b.toNat / 16), hexUpperDigit (b.toNat % 16)] ++ percentEncode safe s ≠ b :: s := by
        intro e
        have := congrArg List.length e
        have := hlen s
        simp only [List.length_append, List.length_cons, List.length_nil] at *
        omega
      exact iff_of_false hne fun h => hb (h b (List.mem_cons_self ..))

/-- What an encoded string is written with. -/
theorem mem_percentEncode {safe : UInt8 → Bool} {s : Bytes} {c : UInt8} (h : c ∈ percentEncode safe s) :
    safe c = true ∨ c = 37 ∨ ∃ n < 16, c = hexUpperDigit n := by
  obtain ⟨b, -, hc⟩ := List.mem_flatMap.mp h
  have hlt : b.toNat < 256 := b.toNat_lt
  by_cases hb : safe b = true
  · rw [if_pos hb, List.mem_singleton] at hc
    exact Or.inl (hc ▸ hb)
  · rw [if_neg hb] at hc
    simp only [List.mem_cons, List.not_mem_nil, or_false] at hc
    rcases hc with h | h | h
    · exact Or.inr (Or.inl h)
    · exact Or.inr (Or.inr ⟨_, by omega, h⟩)
    · exact Or.inr (Or.inr ⟨_, by omega, h⟩)

theorem not_mem_percentEncode {safe : UInt8 → Bool} {c : UInt8} (hs : safe c = false) (h37 : c ≠ 37)
    (hx : ∀ n < 16, c ≠ hexUpperDigit n) (s : Bytes) : c ∉ percentEncode safe s := by
  intro h
  rcases mem_percentEncode h with h | h | ⟨n, hn, h⟩
  · rw [hs] at h
    cases h
  · exact h37 h
  · exact hx n hn h

theorem percentEncode_eq_nil {safe : UInt8 → Bool} {s : Bytes} : percentEncode safe s = [] ↔ s = [] := by
  cases s with
  | nil => simp [percentEncode]
  | cons b s => by_cases hb : safe b = true <;> simp [percentEncode, hb]

/-! ## UTF-8 -/

/-- A well-formed sequence of more than one byte. -/
theorem utf8Step_tail {b c : UInt8} (cs : Bytes) {rest : Bytes} {lo hi : UInt8} (hb : ¬ b < 0x80)
    (ht : utf8Tail b = some (lo, hi, cs.length)) (hc : lo ≤ c ∧ c ≤ hi) (hcs : ∀ d ∈ cs, isContinuation d = true) :
    utf8Step b (c :: cs ++ rest) = ((c :: cs).length + 1, true) := by
  have htake : ((cs ++ rest).take cs.length).takeWhile isContinuation = cs := by
    rw [List.take_left]
    exact List.takeWhile_eq_self_iff.mpr hcs
  simp only [utf8Step, if_neg hb, ht, List.cons_append, if_pos hc, htake, List.length_cons, decide_true]
  congr 1
  omega

theorem utf8Tail_two : ∀ m < 32, 2 ≤ m → utf8Tail (UInt8.ofNat (m + 0xc0)) = some (0x80, 0xbf, 0) := by decide

theorem utf8Tail_three : ∀ m < 16, utf8Tail (UInt8.ofNat (m + 0xe0)) =
    some (if m = 0 then 0xa0 else 0x80, if m = 13 then 0x9f else 0xbf, 1) := by decide

theorem utf8Tail_four : ∀ m < 5, utf8Tail (UInt8.ofNat (m + 0xf0)) =
    some (if m = 0 then 0x90 else 0x80, if m = 4 then 0x8f else 0xbf, 2) := by decide

theorem toNat_continuation (n : Nat) : (UInt8.ofNat (n % 64 + 0x80)).toNat = n % 64 + 128 := by
  rw [UInt8.toNat_ofNat']
  show (n % 64 + 128) % 256 = n % 64 + 128
  omega

theorem continuation_between {lo hi : UInt8} {n : Nat} (h : lo.toNat ≤ n % 64 + 128 ∧ n % 64 + 128 ≤ hi.toNat) :
    lo ≤ UInt8.ofNat (n % 64 + 0x80) ∧ UInt8.ofNat (n % 64 + 0x80) ≤ hi := by
  rw [UInt8.le_iff_toNat_le, UInt8.le_iff_toNat_le, toNat_continuation]
  exact h

theorem isContinuation_ofNat (n : Nat) : isContinuation (UInt8.ofNat (n % 64 + 0x80)) = true := by
  have h : 0x80 ≤ UInt8.ofNat (n % 64 + 0x80) ∧ UInt8.ofNat (n % 64 + 0x80) ≤ 0xbf :=
    continuation_between (show 128 ≤ n % 64 + 128 ∧ n % 64 + 128 ≤ 191 by omega)
  simpa [isContinuation] using h

theorem not_ascii {m : Nat} (h1 : 128 ≤ m) (h2 : m < 256) : ¬ UInt8.ofNat m < 0x80 := by
  rw [UInt8.lt_iff_toNat_lt, UInt8.toNat_ofNat']
  show ¬ m % 256 < 128
  omega

/-- The decoder takes the bytes of a character as one well-formed sequence. -/
theorem utf8Step_char (ch : Char) (rest : Bytes) :
    ∃ b bs, String.utf8EncodeChar ch = b :: bs ∧ utf8Step b (bs ++ rest) = (bs.length + 1, true) := by
  have hv : ch.val.toNat < 0xd800 ∨ 0xdfff < ch.val.toNat ∧ ch.val.toNat < 0x110000 := ch.valid
  simp only [String.utf8EncodeChar]
  generalize ch.val.toNat = n at hv
  by_cases h1 : n ≤ 0x7f
  · refine ⟨_, _, if_pos h1, ?_⟩
    have hb : UInt8.ofNat n < 0x80 := by
      rw [UInt8.lt_iff_toNat_lt, UInt8.toNat_ofNat']
      show n % 256 < 128
      omega
    simp [utf8Step, hb]
  rw [if_neg h1]
  by_cases h2 : n ≤ 0x7ff
  · refine ⟨_, _, if_pos h2, ?_⟩
    exact utf8Step_tail [] (not_ascii (by omega) (by omega)) (utf8Tail_two _ (by omega) (by omega))
      (continuation_between (show 128 ≤ n % 64 + 128 ∧ n % 64 + 128 ≤ 191 by omega)) (by simp)
  rw [if_neg h2]
  by_cases h3 : n ≤ 0xffff
  · refine ⟨_, _, if_pos h3, ?_⟩
    refine utf8Step_tail [_] (not_ascii (by omega) (by omega)) (utf8Tail_three (n / 4096 % 16) (by omega))
      (continuation_between ?_) (List.forall_mem_singleton.mpr (isContinuation_ofNat n))
    -- e0 and ed leave out the overlong forms and the surrogates
    constructor
    · by_cases hlo : n / 4096 % 16 = 0
      · rw [if_pos hlo]
        show 160 ≤ _
        omega
      · rw [if_neg hlo]
        show 128 ≤ _
        omega
    · by_cases hhi : n / 4096 % 16 = 13
      · rw [if_pos hhi]
        show _ ≤ 159
        omega
      · rw [if_neg hhi]
        show _ ≤ 191
        omega
  rw [if_neg h3]
  refine ⟨_, _, rfl, ?_⟩
  refine utf8Step_tail [_, _] (not_ascii (by omega) (by omega)) (utf8Tail_four (n / 262144 % 8) (by omega))
    (continuation_between ?_)
    (List.forall_mem_cons.mpr ⟨isContinuation_ofNat (n / 64), List.forall_mem_singleton.mpr (isContinuation_ofNat n)⟩)
  constructor
  · by_cases hlo : n / 262144 % 8 = 0
    · rw [if_pos hlo]
      show 144 ≤ _
      omega
    · rw [if_neg hlo]
      show 128 ≤ _
      omega
  · by_cases hhi : n / 262144 % 8 = 4
    · rw [if_pos hhi]
      show _ ≤ 143
      omega
    · rw [if_neg hhi]
      show _ ≤ 191
      omega

/-- An ASCII byte is the encoding of its character. -/
theorem utf8EncodeChar_ascii {c : UInt8} (h : c < 0x80) : String.utf8EncodeChar (Char.ofUInt8 c) = [c] := by
  have hn : (Char.ofUInt8 c).val.toNat = c.toNat := UInt8.toNat_toUInt32 c
  have hlt : c.toNat < 128 := UInt8.lt_iff_toNat_lt.mp h
  simp only [String.utf8EncodeChar, hn]
  rw [if_pos (by omega), UInt8.ofNat_toNat]

theorem fromUtf8LossyAux_utf8 (cs : List Char) (n : Nat) (h : (cs.flatMap String.utf8EncodeChar).length ≤ n) :
    fromUtf8LossyAux n (cs.flatMap String.utf8EncodeChar) = cs.flatMap String.utf8EncodeChar := by
  induction cs generalizing n with
  | nil => cases n <;> rfl
  | cons ch cs ih =>
    obtain ⟨b, bs, he, hs⟩ := utf8Step_char ch (cs.flatMap String.utf8EncodeChar)
    rw [List.flatMap_cons, he] at h ⊢
    cases n with
    | zero => simp at h
    | succ n =>
      have hn : (cs.flatMap String.utf8EncodeChar).length ≤ n := by
        simp only [List.cons_append, List.length_cons, List.length_append] at h
        omega
      rw [List.cons_append, fromUtf8LossyAux, hs]
      simp only [if_true, ← List.cons_append]
      have hl : bs.length + 1 = (b :: bs).length := rfl
      rw [hl, List.take_left, List.drop_left, ih n hn]

theorem fromUtf8Lossy_utf8 (cs : List Char) :
    fromUtf8Lossy (cs.flatMap String.utf8EncodeChar) = cs.flatMap String.utf8EncodeChar :=
  fromUtf8LossyAux_utf8 cs _ le_rfl

end S3lite
