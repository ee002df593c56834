/-
  S3lite.Base.Form — text written in the form encoding of queries, in any of the ways that
  encoding leaves open: which characters to escape beyond those that must be, the case of the
  digits, and a space as `+` or escaped.

  - `percentBytes_form`: all of them are read back as the text.
  - `FormText.visible`: all are visible ASCII without the separators.
-/
import S3lite.Base.Encoding

namespace S3lite

def hexLowerDigit (n : Nat) : UInt8 := if n < 10 then UInt8.ofNat (48 + n) else UInt8.ofNat (87 + n)

/-- A hexadecimal digit in either case. -/
def HexDigit (n : Nat) (c : UInt8) : Prop := c = hexUpperDigit n ∨ c = hexLowerDigit n

/-- A visible character without a meaning of its own in the form: not `%`, `&`, `+` or `=`. -/
def IsPlain (b : UInt8) : Prop := 32 < b ∧ b < 127 ∧ b ≠ 37 ∧ b ≠ 38 ∧ b ≠ 43 ∧ b ≠ 61

instance instDecidableIsPlain (b : UInt8) : Decidable (IsPlain b) :=
  inferInstanceAs (Decidable (32 < b ∧ b < 127 ∧ b ≠ 37 ∧ b ≠ 38 ∧ b ≠ 43 ∧ b ≠ 61))

/-- The text and one of its forms. -/
inductive FormText : Bytes → Bytes → Prop
  | nil : FormText [] []
  | plain {b : UInt8} {s e : Bytes} : IsPlain b → FormText s e → FormText (b :: s) (b :: e)
  | space {s e : Bytes} : FormText s e → FormText (32 :: s) (43 :: e)
  | escaped {b hi lo : UInt8} {s e : Bytes} : HexDigit (b.toNat / 16) hi → HexDigit (b.toNat % 16) lo →
      FormText s e → FormText (b :: s) (37 :: hi :: lo :: e)

theorem hexNibble_hexLowerDigit : ∀ n, n < 16 → hexNibble (hexLowerDigit n) = some (UInt8.ofNat n) := by decide

theorem HexDigit.nibble {n : Nat} {c : UInt8} (h : HexDigit n c) (hn : n < 16) : hexNibble c = some (UInt8.ofNat n) := by
  rcases h with rfl | rfl
  · exact hexNibble_hexUpperDigit n hn
  · exact hexNibble_hexLowerDigit n hn

theorem percentBytes_form {s e : Bytes} (h : FormText s e) : percentBytes true e = s := by
  induction h with
  | nil => rfl
  | @plain b s e hb _ ih =>
    have hplus : (true && b == 43) = false := by simpa using hb.2.2.2.2.1
    rw [percentBytes_cons hb.2.2.1, hplus, ih]
    rfl
  | space _ ih =>
    rw [percentBytes_cons (by decide), ih]
    rfl
  | @escaped b hi lo s e hhi hlo _ ih =>
    have hlt : b.toNat < 256 := b.toNat_lt
    rw [percentBytes, hhi.nibble (by omega), hlo.nibble (by omega), ih]
    simp only [byte_of_digits]

/-! ## What a form is written with -/

theorem hexUpperDigit_plain : ∀ n < 16, IsPlain (hexUpperDigit n) := by decide

theorem hexLowerDigit_plain : ∀ n < 16, IsPlain (hexLowerDigit n) := by decide

theorem HexDigit.plain {n : Nat} {c : UInt8} (h : HexDigit n c) (hn : n < 16) : IsPlain c := by
  rcases h with rfl | rfl
  · exact hexUpperDigit_plain n hn
  · exact hexLowerDigit_plain n hn

theorem FormText.mem {s e : Bytes} (h : FormText s e) {c : UInt8} (hc : c ∈ e) : IsPlain c ∨ c = 37 ∨ c = 43 := by
  induction h with
  | nil => cases hc
  | plain hb _ ih =>
    rcases List.mem_cons.mp hc with rfl | hc
    · exact Or.inl hb
    · exact ih hc
  | space _ ih =>
    rcases List.mem_cons.mp hc with rfl | hc
    · exact Or.inr (Or.inr rfl)
    · exact ih hc
  | @escaped b hi lo s e hhi hlo _ ih =>
    have hlt : b.toNat < 256 := b.toNat_lt
    rcases List.mem_cons.mp hc with rfl | hc
    · exact Or.inr (Or.inl rfl)
    rcases List.mem_cons.mp hc with rfl | hc
    · exact Or.inl (hhi.plain (by omega))
    rcases List.mem_cons.mp hc with rfl | hc
    · exact Or.inl (hlo.plain (by omega))
    · exact ih hc

theorem FormText.visible {s e : Bytes} (h : FormText s e) {c : UInt8} (hc : c ∈ e) :
    32 < c ∧ c < 127 ∧ c ≠ 38 ∧ c ≠ 61 := by
  rcases h.mem hc with hc | rfl | rfl
  · exact ⟨hc.1, hc.2.1, hc.2.2.2.1, hc.2.2.2.2.2⟩
  · decide
  · decide

end S3lite
