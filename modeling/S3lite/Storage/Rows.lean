/-
  S3lite.Storage.Rows — the rows of `OBJECTS` by bucket and key.

  In a well-keyed database (`WellKeyed`) every manifest is stored under the encoding of its
  own NUL-free key.
  - `mem_row_range`: a scan from `bucket\0s` to before `bucket\1` visits the bucket's rows
    whose key and version id come at or after `s`.
  - `get_latest_eq`: the latest version is the latest of the key's committed manifests
    (`versionsOf`), wherever the scan starts and stops.
-/
import S3lite.Storage.Ops

namespace S3lite

/-- Every row is stored under the encoding of its own NUL-free key. -/
def WellKeyed (db : Db) : Prop := ∀ r ∈ db.objects.rows, r.1 = r.2.key.encode ∧ r.2.key.NulFree

/-- The committed manifests of a key, in row order. -/
def versionsOf (db : Db) (bucket key : Str) : List Manifest :=
  (db.objects.rows.map (·.2)).filter fun m => m.state = .committed ∧ m.key.bucket = bucket ∧ m.key.key = key

theorem mem_versionsOf {db : Db} {bucket key : Str} {m : Manifest} : m ∈ versionsOf db bucket key ↔
    (∃ k, (k, m) ∈ db.objects.rows) ∧ m.state = .committed ∧ m.key.bucket = bucket ∧ m.key.key = key := by
  simp [versionsOf]

/-- A scan of one bucket from a position inside it. -/
theorem mem_row_range {k : ManifestKey} (hk : k.NulFree) {bucket s : Str} (hb : NulFree bucket) :
    bucket ++ 0 :: s ≤ k.encode ∧ k.encode < bucket ++ [1] ↔ k.bucket = bucket ∧ s ≤ k.key ++ 0 :: k.versionId :=
  Word.word_range_iff zero_lt_iff_one_le hb hk.bucket

/-- The rows of one key. -/
theorem mem_key_range {k : ManifestKey} (hk : k.NulFree) :
    k.bucket ++ 0 :: (k.key ++ [0]) ≤ k.encode ∧ k.encode < k.bucket ++ 0 :: (k.key ++ [1]) := by
  have h : k.key ++ 0 :: [] ≤ k.key ++ 0 :: k.versionId ∧ k.key ++ 0 :: k.versionId < k.key ++ [1] :=
    (Word.word_range_iff zero_lt_iff_one_le hk.key hk.key).mpr ⟨rfl, by rw [← not_lt]; exact List.not_lt_nil _⟩
  constructor
  · rw [← not_lt, ManifestKey.encode, Word.word_lt_word_iff hk.bucket hk.bucket]
    rintro (h' | ⟨-, h'⟩)
    · exact lt_irrefl _ h'
    · exact absurd h.1 (not_le.mpr h')
  · rw [ManifestKey.encode, Word.word_lt_word_iff hk.bucket hk.bucket]
    exact Or.inr ⟨rfl, h.2⟩

theorem get_latest_eq {db : Db} (hdb : WellKeyed db) (bucket key : Str) :
    handleGetLatestVersion db bucket key = (versionsOf db bucket key).foldl takeLatest none := by
  unfold handleGetLatestVersion versionsOf Table.range
  simp only [List.filter_map, List.filter_filter]
  congr 2
  refine List.filter_congr fun r hr => ?_
  obtain ⟨hrow, hk⟩ := hdb r hr
  have hrange := mem_key_range hk
  by_cases h : r.2.key.bucket = bucket ∧ r.2.key.key = key
  · obtain ⟨rfl, rfl⟩ := h
    simp [hrow, hrange]
  · by_cases hs : r.2.state = .committed
    · simp [hs, h]
    · simp [hs]

/-- The latest version is one of the key's committed manifests. -/
theorem foldl_takeLatest_mem {ms : List Manifest} {l : Option Manifest} {m : Manifest}
    (h : ms.foldl takeLatest l = some m) : m ∈ ms ∨ l = some m := by
  induction ms generalizing l with
  | nil => exact Or.inr h
  | cons x ms ih =>
    rcases ih h with hm | hm
    · exact Or.inl (List.mem_cons_of_mem _ hm)
    · unfold takeLatest at hm
      split at hm
      · cases hm; exact Or.inl (List.mem_cons_self ..)
      · split at hm
        · cases hm; exact Or.inl (List.mem_cons_self ..)
        · exact Or.inr hm

theorem get_latest_mem {db : Db} (hdb : WellKeyed db) {bucket key : Str} {m : Manifest}
    (h : handleGetLatestVersion db bucket key = some m) : m ∈ versionsOf db bucket key := by
  rw [get_latest_eq hdb] at h
  rcases foldl_takeLatest_mem h with h | h
  · exact h
  · cases h

/-- The database of the given manifests, each under its own key. -/
def dbOf (ms : List Manifest) : Db :=
  { Db.empty with objects := ms.foldl (fun objects m => objects.insert m.key.encode m) .empty }

theorem dbOf_wellKeyed {ms : List Manifest} (h : ∀ m ∈ ms, m.key.NulFree) : WellKeyed (dbOf ms) := by
  have hfold : ∀ (ms : List Manifest) (objects : Objects), (∀ m ∈ ms, m.key.NulFree) →
      (∀ r ∈ objects.rows, r.1 = r.2.key.encode ∧ r.2.key.NulFree) →
      ∀ r ∈ (ms.foldl (fun objects m => objects.insert m.key.encode m) objects).rows,
        r.1 = r.2.key.encode ∧ r.2.key.NulFree := by
    intro ms
    induction ms with
    | nil => exact fun _ _ h => h
    | cons m ms ih =>
      intro objects hms h
      refine ih _ (fun x hx => hms x (List.mem_cons_of_mem _ hx)) ?_
      intro r hr
      rcases Table.mem_insert.mp hr with rfl | ⟨hr, -⟩
      · exact ⟨rfl, hms m (List.mem_cons_self ..)⟩
      · exact h r hr
  exact hfold ms .empty h fun r hr => absurd hr List.not_mem_nil

end S3lite
