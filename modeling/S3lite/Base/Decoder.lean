/-
  S3lite.Base.Decoder — percent decoding as a loop over an index, with a look-ahead of two
  bytes and every read checked.

  - `decodeLoop_eq`: in at most as many passes as there are bytes the loop ends, has read
    inside the string only, and has written what the string stands for (`percentBytes`).
  - `percentBytes_append_percent`: a `%` that no two digits follow stands for itself, and what
    is on either side of it is decoded as if it stood alone.
  - `fromUtf8Lossy_append`: so does lossy decoding, at any ASCII byte.
-/
import S3lite.Base.Encoding

namespace S3lite

/-! ## The loop -/

/-- One pass at an index: the index to go on at and the bytes written; `none` is a read outside
    the string. -/
def decodeStep (plus : Bool) (bytes : Bytes) (i : Nat) (out : Bytes) : Option (Nat × Bytes) := do
  let b ← bytes[i]?
  if plus && b == 43 then some (i + 1, out ++ [32])
  else if b = 37 ∧ i + 2 < bytes.length then
    let hi ← bytes[i + 1]?
    let lo ← bytes[i + 2]?
    match hexNibble hi, hexNibble lo with
    | some h, some l => some (i + 3, out ++ [h <<< 4 ||| l])
    | _, _ => some (i + 1, out ++ [b])
  else some (i + 1, out ++ [b])

/-- The loop, for at most so many passes; `none` too when it goes on after them. -/
def decodeLoop (plus : Bool) (bytes : Bytes) : Nat → Nat → Bytes → Option Bytes
  | 0, i, out => if i < bytes.length then none else some out
  | passes + 1, i, out =>
    if i < bytes.length then (decodeStep plus bytes i out).bind fun r => decodeLoop plus bytes passes r.1 r.2
    else some out

theorem hexNibble_lt {b n : UInt8} (h : hexNibble b = some n) : n.toNat < 16 := by
  unfold hexNibble at h
  repeat' split at h
  all_goals cases h
  all_goals
    rename_i hb
    simp only [UInt8.le_iff_toNat_le, UInt8.reduceToNat] at hb
    simp only [UInt8.toNat_add, UInt8.toNat_sub, UInt8.reduceToNat]
    omega

/-- Two digits side by side are one byte. -/
theorem nibbles_eq {h l : UInt8} (hh : h.toNat < 16) (hl : l.toNat < 16) : h <<< 4 ||| l = h * 16 + l := by
  apply UInt8.toNat_inj.mp
  rw [UInt8.toNat_or, UInt8.toNat_shiftLeft, UInt8.toNat_add, UInt8.toNat_mul]
  have h4 : (4 : UInt8).toNat % 8 = 4 := rfl
  have h16 : (16 : UInt8).toNat = 16 := rfl
  have hshift : h.toNat <<< 4 = h.toNat * 16 := Nat.shiftLeft_eq h.toNat 4
  have hmod : h.toNat * 16 % 2 ^ 8 = h.toNat * 16 := Nat.mod_eq_of_lt (by omega)
  have hsum : (h.toNat * 16 + l.toNat) % 2 ^ 8 = h.toNat * 16 + l.toNat := Nat.mod_eq_of_lt (by omega)
  rw [h4, h16, hshift, hmod, hsum, ← hshift]
  exact (Nat.shiftLeft_add_eq_or_of_lt (by omega) h.toNat).symm

/-- The text goes on with two hexadecimal digits. -/
def StartsHex : Bytes → Bool
  | hi :: lo :: _ => (hexNibble hi).isSome && (hexNibble lo).isSome
  | _ => false

/-- A `%` without two digits stands for itself. -/
theorem percentBytes_percent {plus : Bool} {s : Bytes} (h : StartsHex s = false) :
    percentBytes plus (37 :: s) = 37 :: percentBytes plus s := by
  rcases s with _ | ⟨hi, _ | ⟨lo, t⟩⟩
  · cases plus <;> rfl
  · have h37 : (if plus && (37 : UInt8) == 43 then 32 else 37 : UInt8) = 37 := by cases plus <;> rfl
    rw [percentBytes, h37]
    intro hi lo t _ e
    cases e
  · rw [percentBytes]
    cases hhi : hexNibble hi with
    | none => rfl
    | some x =>
      cases hlo : hexNibble lo with
      | none => rfl
      | some y =>
        rw [StartsHex, hhi, hlo] at h
        cases h

/-- One pass decodes what stands at the index and stays inside the string. -/
theorem decodeStep_eq (plus : Bool) (pre : Bytes) (c : UInt8) (s out : Bytes) :
    ∃ n o, decodeStep plus (pre ++ c :: s) pre.length out = some (pre.length + n, out ++ o) ∧ 0 < n ∧ n ≤ s.length + 1 ∧
      percentBytes plus (c :: s) = o ++ percentBytes plus ((c :: s).drop n) := by
  have hat : (pre ++ c :: s)[pre.length]? = some c := by simp
  by_cases hplus : (plus && c == 43) = true
  · refine ⟨1, [32], ?_, by omega, by omega, ?_⟩
    · rw [decodeStep, hat, Option.bind_eq_bind, Option.bind_some, if_pos hplus]
    · have hne : c ≠ 37 := by
        intro e
        rw [e] at hplus
        simp at hplus
      rw [percentBytes_cons hne, if_pos hplus]
      rfl
  have hlen : (pre ++ c :: s).length = pre.length + (s.length + 1) := by simp
  by_cases hc : c = 37
  · subst hc
    by_cases hx : StartsHex s = true
    · rcases s with _ | ⟨hi, _ | ⟨lo, t⟩⟩
      · cases hx
      · cases hx
      · rw [StartsHex, Bool.and_eq_true] at hx
        obtain ⟨h, hh⟩ := Option.isSome_iff_exists.mp hx.1
        obtain ⟨l, hl⟩ := Option.isSome_iff_exists.mp hx.2
        have hhi : (pre ++ 37 :: hi :: lo :: t)[pre.length + 1]? = some hi := by simp
        have hlo : (pre ++ 37 :: hi :: lo :: t)[pre.length + 2]? = some lo := by simp
        refine ⟨3, [h * 16 + l], ?_, by omega, by simp, ?_⟩
        · rw [decodeStep, hat, Option.bind_eq_bind, Option.bind_some, if_neg hplus, if_pos ⟨rfl, by rw [hlen]; simp⟩, hhi, hlo]
          simp only [Option.bind_some, hh, hl, nibbles_eq (hexNibble_lt hh) (hexNibble_lt hl)]
        · rw [percentBytes, hh, hl]
          rfl
    · rw [Bool.not_eq_true] at hx
      refine ⟨1, [37], ?_, by omega, by omega, percentBytes_percent hx⟩
      rw [decodeStep, hat, Option.bind_eq_bind, Option.bind_some, if_neg hplus]
      split
      · rename_i hroom
        rcases s with _ | ⟨hi, _ | ⟨lo, t⟩⟩
        · simp at hroom
        · simp at hroom
        · have hhi : (pre ++ 37 :: hi :: lo :: t)[pre.length + 1]? = some hi := by simp
          have hlo : (pre ++ 37 :: hi :: lo :: t)[pre.length + 2]? = some lo := by simp
          rw [hhi, hlo]
          simp only [Option.bind_some]
          cases hh : hexNibble hi with
          | none => rfl
          | some h =>
            cases hl : hexNibble lo with
            | none => rfl
            | some l =>
              rw [StartsHex, hh, hl] at hx
              cases hx
      · rfl
  · refine ⟨1, [c], ?_, by omega, by omega, ?_⟩
    · rw [decodeStep, hat, Option.bind_eq_bind, Option.bind_some, if_neg hplus, if_neg fun h => hc h.1]
    · rw [percentBytes_cons hc, if_neg hplus]
      rfl

theorem decodeLoop_from (plus : Bool) (passes : Nat) (pre tail out : Bytes) (h : tail.length ≤ passes) :
    decodeLoop plus (pre ++ tail) passes pre.length out = some (out ++ percentBytes plus tail) := by
  induction passes generalizing pre tail out with
  | zero =>
    obtain rfl := List.length_eq_zero_iff.mp (Nat.le_zero.mp h)
    simp [decodeLoop, percentBytes]
  | succ passes ih =>
    cases tail with
    | nil => simp [decodeLoop, percentBytes]
    | cons c s =>
      obtain ⟨n, o, hstep, hpos, hle, hbytes⟩ := decodeStep_eq plus pre c s out
      have hsplit : pre ++ c :: s = (pre ++ (c :: s).take n) ++ (c :: s).drop n := by
        rw [List.append_assoc, List.take_append_drop]
      have hlen : (pre ++ (c :: s).take n).length = pre.length + n := by
        rw [List.length_append, List.length_take, List.length_cons, Nat.min_eq_left hle]
      have hrest : ((c :: s).drop n).length ≤ passes := by
        rw [List.length_drop, List.length_cons]
        rw [List.length_cons] at h
        omega
      rw [decodeLoop, if_pos (by simp), hstep, Option.bind_some, hsplit]
      simp only
      rw [← hlen, ih _ _ _ hrest, hbytes, List.append_assoc]

/-- The loop ends within as many passes as there are bytes, and reads none outside. -/
theorem decodeLoop_eq (plus : Bool) (s : Bytes) : decodeLoop plus s s.length 0 [] = some (percentBytes plus s) :=
  decodeLoop_from plus s.length [] s [] le_rfl

/-! ## A malformed escape -/

theorem percentBytes_append_percent {plus : Bool} (a : Bytes) {b : Bytes} (h : StartsHex b = false) :
    percentBytes plus (a ++ 37 :: b) = percentBytes plus a ++ 37 :: percentBytes plus b := by
  induction a using percentBytes.induct with
  | case1 => exact percentBytes_percent h
  | case2 hi lo s x y hy hx ih =>
    rw [List.cons_append, List.cons_append, List.cons_append, percentBytes, percentBytes, hx, hy]
    simp only [ih, List.cons_append]
  | case3 hi lo s hn ih =>
    have hs : StartsHex (hi :: lo :: s) = false := by
      rw [StartsHex]
      cases hx : hexNibble hi with
      | none => rfl
      | some x =>
        cases hy : hexNibble lo with
        | none => rfl
        | some y => exact absurd hy (hn x y hx)
    rw [percentBytes_percent hs, List.cons_append, percentBytes_percent (by exact hs), ih, List.cons_append]
  | case4 c s hn ih =>
    by_cases hc : c = 37
    · subst hc
      -- fewer than two bytes before the next `%`, which is no digit
      have hs : StartsHex s = false ∧ StartsHex (s ++ 37 :: b) = false := by
        rcases s with _ | ⟨hi, _ | ⟨lo, t⟩⟩
        · exact ⟨rfl, by cases b <;> rfl⟩
        · exact ⟨rfl, by simp [StartsHex, hexNibble]⟩
        · exact absurd rfl (hn hi lo t rfl)
      rw [percentBytes_percent hs.1, List.cons_append, percentBytes_percent hs.2, ih, List.cons_append]
    · rw [percentBytes_cons hc, List.cons_append, percentBytes_cons hc, ih, List.cons_append]

/-! ## Lossy decoding around an ASCII byte -/

theorem utf8Step_bounds (b : UInt8) (rest : Bytes) : 0 < (utf8Step b rest).1 ∧ (utf8Step b rest).1 ≤ rest.length + 1 := by
  unfold utf8Step
  split
  · exact ⟨Nat.one_pos, by omega⟩
  split
  · exact ⟨Nat.one_pos, by omega⟩
  · cases rest with
    | nil => exact ⟨Nat.one_pos, le_rfl⟩
    | cons c cs =>
      dsimp only
      split
      · rename_i lo hi more ht hc
        have hgot : ((cs.take more).takeWhile isContinuation).length ≤ (cs.take more).length :=
          (List.takeWhile_prefix isContinuation).length_le
        have htake : (cs.take more).length ≤ cs.length := List.length_take_le' more cs
        simp only [List.length_cons]
        omega
      · simp only [List.length_cons]
        omega

theorem fromUtf8LossyAux_eq {n : Nat} {s : Bytes} (h : s.length ≤ n) : fromUtf8LossyAux n s = fromUtf8Lossy s := by
  have hsame : ∀ n m (s : Bytes), s.length ≤ n → s.length ≤ m → fromUtf8LossyAux n s = fromUtf8LossyAux m s := by
    intro n
    induction n with
    | zero =>
      intro m s hn _
      obtain rfl := List.length_eq_zero_iff.mp (Nat.le_zero.mp hn)
      cases m <;> rfl
    | succ n ih =>
      intro m s hn hm
      cases s with
      | nil => cases m <;> rfl
      | cons b rest =>
        cases m with
        | zero => simp at hm
        | succ m =>
          have hb := utf8Step_bounds b rest
          have hdrop : ((b :: rest).drop (utf8Step b rest).1).length ≤ rest.length := by
            rw [List.length_drop, List.length_cons]
            omega
          simp only [List.length_cons] at hn hm
          simp only [fromUtf8LossyAux]
          rw [ih m _ (by omega) (by omega)]
  exact hsame n s.length s h le_rfl

theorem takeWhile_take_append {p : UInt8 → Bool} {c : UInt8} (hc : p c = false) (s b : Bytes) (n : Nat) :
    ((s ++ c :: b).take n).takeWhile p = (s.take n).takeWhile p := by
  induction s generalizing n with
  | nil => cases n <;> simp [hc]
  | cons d s ih =>
    cases n with
    | zero => rfl
    | succ n =>
      rw [List.cons_append, List.take_succ_cons, List.take_succ_cons, List.takeWhile_cons, List.takeWhile_cons, ih]

theorem isContinuation_ascii {c : UInt8} (hc : c < 0x80) : isContinuation c = false := by
  rw [isContinuation, Bool.and_eq_false_iff]
  exact Or.inl (decide_eq_false (not_le.mpr hc))

/-- The first byte of a sequence asks for a continuation byte next. -/
theorem utf8Tail_lo {b lo hi : UInt8} {n : Nat} (h : utf8Tail b = some (lo, hi, n)) : 0x80 ≤ lo := by
  unfold utf8Tail at h
  repeat' split at h
  all_goals cases h
  all_goals decide

/-- An ASCII byte is never part of the sequence before it. -/
theorem utf8Step_append {c : UInt8} (hc : c < 0x80) (x : UInt8) (rest b : Bytes) :
    utf8Step x (rest ++ c :: b) = utf8Step x rest := by
  unfold utf8Step
  split
  · rfl
  cases ht : utf8Tail x with
  | none => rfl
  | some r =>
    obtain ⟨lo, hi, more⟩ := r
    cases rest with
    | nil =>
      have hlo : ¬ (lo ≤ c ∧ c ≤ hi) := fun h => absurd ((utf8Tail_lo ht).trans h.1) (not_le.mpr hc)
      simp [hlo]
    | cons d ds =>
      simp only [List.cons_append, takeWhile_take_append (isContinuation_ascii hc)]

theorem fromUtf8Lossy_append {c : UInt8} (hc : c < 0x80) (a b : Bytes) :
    fromUtf8Lossy (a ++ c :: b) = fromUtf8Lossy a ++ c :: fromUtf8Lossy b := by
  have haux : ∀ n (a : Bytes), a.length ≤ n →
      fromUtf8Lossy (a ++ c :: b) = fromUtf8LossyAux n a ++ c :: fromUtf8Lossy b := by
    intro n
    induction n with
    | zero =>
      intro a ha
      obtain rfl := List.length_eq_zero_iff.mp (Nat.le_zero.mp ha)
      have hstep : utf8Step c b = (1, true) := by rw [utf8Step, if_pos hc]
      rw [fromUtf8Lossy, List.nil_append, List.length_cons]
      simp only [fromUtf8LossyAux, hstep]
      rfl
    | succ n ih =>
      intro a ha
      cases a with
      | nil =>
        have hnil : fromUtf8LossyAux n [] = [] := by cases n <;> rfl
        rw [ih [] (Nat.zero_le n), hnil]
        rfl
      | cons x rest =>
        have hb := utf8Step_bounds x rest
        have hlen : (utf8Step x rest).1 ≤ (x :: rest).length := hb.2
        have hdrop : ((x :: rest).drop (utf8Step x rest).1).length ≤ n := by
          rw [List.length_drop]
          rw [List.length_cons] at ha ⊢
          omega
        have hwhole : (((x :: rest).drop (utf8Step x rest).1) ++ c :: b).length ≤ (rest ++ c :: b).length := by
          simp only [List.length_append, List.length_drop, List.length_cons]
          omega
        rw [fromUtf8Lossy, List.cons_append, List.length_cons]
        simp only [fromUtf8LossyAux, utf8Step_append hc]
        rw [← List.cons_append, List.take_append_of_le_length hlen, List.drop_append_of_le_length hlen,
          fromUtf8LossyAux_eq hwhole, ih _ hdrop, List.append_assoc]
  exact haux a.length a le_rfl

/-- Percent decoding leaves a malformed escape as it is. -/
theorem percentDecode_append_percent {plus : Bool} (a : Bytes) {b : Bytes} (h : StartsHex b = false) :
    percentDecode plus (a ++ 37 :: b) = percentDecode plus a ++ 37 :: percentDecode plus b := by
  rw [percentDecode, percentBytes_append_percent a h, fromUtf8Lossy_append (by decide)]
  rfl

end S3lite
