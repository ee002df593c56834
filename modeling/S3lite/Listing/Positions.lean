/-
  S3lite.Listing.Positions — the order of the row keys and the positions a scan starts at.

  `row_order`: NUL-free keys are stored in the order of bucket, key and version; no other key,
  NUL-free or not, has the row of one; and the positions after a key, after a prefix and
  around a bucket divide the rows as their names say.
-/
import S3lite.Listing.Reference

namespace S3lite

/-- The order of bucket, key and version. -/
def ManifestKey.Before (j k : ManifestKey) : Prop :=
  j.bucket < k.bucket ∨ j.bucket = k.bucket ∧ (j.key < k.key ∨ j.key = k.key ∧ j.versionId < k.versionId)

theorem encode_lt_iff {j k : ManifestKey} (hj : j.NulFree) (hk : k.NulFree) : j.encode < k.encode ↔ j.Before k := by
  unfold ManifestKey.encode
  rw [Word.word_lt_word_iff hj.bucket hk.bucket, Word.word_lt_word_iff hj.key hk.key]
  rfl

/-! ## Keys with NUL bytes -/

theorem nulFree_iff_count {s : Str} : NulFree s ↔ s.count 0 = 0 := by
  rw [List.count_eq_zero]
  constructor
  · intro h h0
    exact absurd (h 0 h0) (by decide)
  · intro h c hc
    have hne : c ≠ 0 := fun e => h (e ▸ hc)
    exact UInt8.pos_iff_ne_zero.mpr hne

/-- The separators are two of the row key's NUL bytes. -/
theorem count_encode (k : ManifestKey) :
    k.encode.count 0 = k.bucket.count 0 + k.key.count 0 + k.versionId.count 0 + 2 := by
  unfold ManifestKey.encode
  simp only [List.count_append, List.count_cons_self]
  omega

theorem nulFree_of_encode {q k : ManifestKey} (hk : k.NulFree) (h : q.encode = k.encode) : q.NulFree := by
  have hcount := congrArg (List.count 0) h
  rw [count_encode, count_encode, nulFree_iff_count.mp hk.bucket, nulFree_iff_count.mp hk.key,
    nulFree_iff_count.mp hk.versionId] at hcount
  constructor
  · apply nulFree_iff_count.mpr
    omega
  · apply nulFree_iff_count.mpr
    omega
  · apply nulFree_iff_count.mpr
    omega

/-- A key from a request, NUL bytes or not, has no NUL-free key's row but its own. -/
theorem eq_of_encode {q k : ManifestKey} (hk : k.NulFree) (h : q.encode = k.encode) : q = k :=
  ManifestKey.encode_injective (nulFree_of_encode hk h) hk h

/-! ## Positions -/

/-- Within a bucket, positions are compared without it. -/
theorem row_le_iff {k : ManifestKey} (hk : k.NulFree) (s : Bytes) :
    k.bucket ++ 0 :: s ≤ k.encode ↔ s ≤ k.key ++ 0 :: k.versionId := by
  have h := Word.word_lt_word_iff (s := k.key ++ 0 :: k.versionId) (t := s) hk.bucket hk.bucket
  rw [ManifestKey.encode, ← not_lt, h, ← not_lt]
  simp

theorem afterKey_le_iff {k : ManifestKey} (hk : k.NulFree) {y : Str} (hy : NulFree y) :
    afterKey k.bucket y ≤ k.encode ↔ y < k.key := by
  rw [afterKey, row_le_iff hk]
  exact Word.next_le_word_iff zero_lt_iff_one_le hk.key hy

/-- The last byte of UTF-8 text can be increased without a carry. -/
theorem afterPrefix_le_iff {k : ManifestKey} (hk : k.NulFree) {p : Str} (hp : NulFree p) (hu : IsUtf8 p) (hne : p ≠ []) :
    afterPrefix k.bucket p ≤ k.encode ↔ p < k.key ∧ ¬ p <+: k.key := by
  obtain ⟨q, c, rfl⟩ := List.eq_nil_or_concat' p |>.resolve_left hne
  have hc : c ∈ q ++ [c] := List.mem_append_right q (List.mem_singleton.mpr rfl)
  have hff : c < 0xff := hu.lt_ff hc
  rw [afterPrefix, bumpLast_append hff, Option.getD_some, row_le_iff hk]
  exact Word.skip_le_word_iff (lt_iff_succ_le hff) (hp c hc) fun d hd => hp d (List.mem_append_left _ hd)

theorem bucket_range_iff {k : ManifestKey} (hk : k.NulFree) {b : Str} (hb : NulFree b) :
    b ++ [0] ≤ k.encode ∧ k.encode < b ++ [1] ↔ k.bucket = b := by
  have hnil : ([] : Bytes) ≤ k.key ++ 0 :: k.versionId := Word.le_append [] _
  rw [mem_row_range hk hb]
  simp [hnil]

/-- Where the row of a key lies. -/
structure RowOrder (k : ManifestKey) : Prop where
  ordered : ∀ j : ManifestKey, j.NulFree → (j.encode < k.encode ↔ j.Before k)
  unique : ∀ q : ManifestKey, q.encode = k.encode → q = k
  after_key : ∀ y, NulFree y → (afterKey k.bucket y ≤ k.encode ↔ y < k.key)
  after_prefix : ∀ p, NulFree p → IsUtf8 p → p ≠ [] → (afterPrefix k.bucket p ≤ k.encode ↔ p < k.key ∧ ¬ p <+: k.key)
  in_bucket : ∀ b, NulFree b → (b ++ [0] ≤ k.encode ∧ k.encode < b ++ [1] ↔ k.bucket = b)

theorem row_order {k : ManifestKey} (hk : k.NulFree) : RowOrder k where
  ordered _ hj := encode_lt_iff hj hk
  unique _ h := eq_of_encode hk h
  after_key _ hy := afterKey_le_iff hk hy
  after_prefix _ hp hu hne := afterPrefix_le_iff hk hp hu hne
  in_bucket _ hb := bucket_range_iff hk hb

def photoKey : ManifestKey := ⟨str "photos", str "2024/cat.jpg", str "null"⟩

theorem row_order_photo : photoKey.NulFree ∧ RowOrder photoKey := by
  have h : photoKey.NulFree := ⟨by decide, by decide, by decide⟩
  exact ⟨h, row_order h⟩

end S3lite
