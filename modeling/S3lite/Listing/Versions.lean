/-
  S3lite.Listing.Versions — the newest of a key's versions by a stable sort, and what one
  page of `list_object_versions` lists.

  - `find_sortVersions`: in a key's versions, newest first, the first of a kind is the one
    that a running strict maximum over that kind keeps: the earliest row of the greatest
    `last_modified`.
  - `handleListObjectVersions_eq`: a page is the first `limit` of all entries, truncated when
    there are more.
-/
import S3lite.Listing.Reference

namespace S3lite

/-! ## The newest version -/

/-- Of a manifest and the latest of those after it, the latest. -/
def laterOf (m : Manifest) : Option Manifest → Manifest
  | none => m
  | some l => if m.lastModified < l.lastModified then l else m

theorem foldl_takeLatest_some (m : Manifest) (ms : List Manifest) :
    ms.foldl takeLatest (some m) = some (laterOf m (ms.foldl takeLatest none)) := by
  induction ms generalizing m with
  | nil => rfl
  | cons x ms ih =>
    have hstep : takeLatest (some m) x = if m.lastModified < x.lastModified then some x else some m := rfl
    rw [List.foldl_cons, List.foldl_cons, show takeLatest none x = some x from rfl, ih x, hstep]
    by_cases hx : m.lastModified < x.lastModified
    · simp only [if_pos hx]
      rw [ih x]
      unfold laterOf
      cases ms.foldl takeLatest none with
      | none => simp [hx]
      | some l =>
        by_cases hl : x.lastModified < l.lastModified
        · simp [hl, hx.trans hl]
        · simp [hl, hx]
    · simp only [if_neg hx]
      rw [ih m]
      unfold laterOf
      cases ms.foldl takeLatest none with
      | none => simp [hx]
      | some l =>
        by_cases hl : x.lastModified < l.lastModified
        · simp [hl]
        · have hml : ¬ m.lastModified < l.lastModified := not_lt.mpr ((not_lt.mp hl).trans (not_lt.mp hx))
          simp [hl, hx, hml]

theorem foldl_takeLatest_cons (m : Manifest) (ms : List Manifest) :
    (m :: ms).foldl takeLatest none = some (laterOf m (ms.foldl takeLatest none)) := foldl_takeLatest_some m ms

/-- A manifest newer than all others is the latest. -/
theorem foldl_takeLatest_newest {t : Manifest} {ms : List Manifest} (ht : t ∈ ms)
    (h : ∀ x ∈ ms, x ≠ t → x.lastModified < t.lastModified) : ms.foldl takeLatest none = some t := by
  induction ms with
  | nil => cases ht
  | cons m ms ih =>
    rw [foldl_takeLatest_cons]
    by_cases hin : t ∈ ms
    · rw [ih hin fun x hx => h x (List.mem_cons_of_mem _ hx)]
      by_cases hm : m = t
      · simp [laterOf, hm]
      · simp [laterOf, h m (List.mem_cons_self ..) hm]
    · obtain rfl : t = m := (List.mem_cons.mp ht).resolve_right hin
      cases hl : ms.foldl takeLatest none with
      | none => rfl
      | some l =>
        have hmem : l ∈ ms := (foldl_takeLatest_mem hl).resolve_right (by simp)
        have hlt := h l (List.mem_cons_of_mem _ hmem) fun e => hin (e ▸ hmem)
        simp [laterOf, lt_asymm hlt]

/-- Newest first. -/
def Newest (a b : Manifest) : Prop := b.lastModified ≤ a.lastModified

instance instDecidableNewest : DecidableRel Newest := fun a b => inferInstanceAs (Decidable (b.lastModified ≤ a.lastModified))

instance instTotalNewest : Std.Total Newest := ⟨fun a b => le_total b.lastModified a.lastModified⟩

instance instTransNewest : IsTrans Manifest Newest := ⟨fun _ _ _ h h' => le_trans h' h⟩

theorem sortVersions_sorted (ms : List Manifest) : (sortVersions ms).Pairwise Newest :=
  List.pairwise_insertionSort Newest ms

/-- A manifest put before the first that is no newer. -/
theorem find_orderedInsert (p : Manifest → Bool) (m : Manifest) {ms : List Manifest} (hs : ms.Pairwise Newest) :
    (ms.orderedInsert Newest m).find? p = if p m then some (laterOf m (ms.find? p)) else ms.find? p := by
  induction ms with
  | nil => cases hp : p m <;> simp [hp, laterOf]
  | cons x ms ih =>
    obtain ⟨hx, hms⟩ := List.pairwise_cons.mp hs
    rw [List.orderedInsert_cons]
    split
    · rename_i hmx
      cases hp : p m with
      | false => simp [hp]
      | true =>
        -- whatever is found behind it is no newer
        have hnot : ∀ l, (x :: ms).find? p = some l → ¬ m.lastModified < l.lastModified := by
          intro l hl
          rcases List.mem_cons.mp (List.mem_of_find?_eq_some hl) with rfl | hmem
          · exact not_lt.mpr hmx
          · exact not_lt.mpr (le_trans (hx l hmem) hmx)
        rw [List.find?_cons_of_pos hp, if_pos rfl]
        unfold laterOf
        cases hl : (x :: ms).find? p with
        | none => rfl
        | some l => simp only [if_neg (hnot l hl)]
    · rename_i hmx
      have hlt : m.lastModified < x.lastModified := not_le.mp hmx
      rw [List.find?_cons, List.find?_cons, ih hms]
      cases hpx : p x with
      | false => rfl
      | true => cases p m <;> simp [laterOf, hlt]

/-- The first of a kind in the sorted versions is the one a running maximum keeps. -/
theorem find_sortVersions (p : Manifest → Bool) (ms : List Manifest) :
    (sortVersions ms).find? p = (ms.filter p).foldl takeLatest none := by
  induction ms with
  | nil => rfl
  | cons m ms ih =>
    have h := find_orderedInsert p m (sortVersions_sorted ms)
    rw [List.filter_cons]
    refine Eq.trans h ?_
    rw [ih]
    cases p m with
    | false => rfl
    | true => exact (foldl_takeLatest_cons m _).symm

theorem head_sortVersions (ms : List Manifest) : (sortVersions ms).head? = ms.foldl takeLatest none := by
  have h := find_sortVersions (fun _ => true) ms
  rw [List.filter_true] at h
  rw [← h]
  cases sortVersions ms <;> rfl

/-! ## Versions by key -/

theorem foldl_pushVersion_get (ms : List Manifest) (t : Table Str (List Manifest)) (key : Str) :
    ((ms.foldl pushVersion t).get key).getD [] = (t.get key).getD [] ++ ms.filter fun m => m.key.key = key := by
  induction ms generalizing t with
  | nil => simp
  | cons m ms ih =>
    rw [List.foldl_cons, ih, List.filter_cons]
    unfold pushVersion
    by_cases h : m.key.key = key
    · subst h
      simp
    · rw [Table.get_insert_ne _ _ (Ne.symm h)]
      simp [h]

/-- A key has a list exactly if it has a version. -/
theorem foldl_pushVersion_isSome (ms : List Manifest) (t : Table Str (List Manifest)) (key : Str) :
    ((ms.foldl pushVersion t).get key).isSome ↔ (t.get key).isSome ∨ ∃ m ∈ ms, m.key.key = key := by
  induction ms generalizing t with
  | nil => simp
  | cons m ms ih =>
    rw [List.foldl_cons, ih]
    unfold pushVersion
    by_cases h : m.key.key = key
    · subst h
      simp
    · rw [Table.get_insert_ne _ _ (Ne.symm h)]
      simp [h]

theorem mem_pushVersion_rows {ms : List Manifest} {r : Str × List Manifest}
    (h : r ∈ (ms.foldl pushVersion .empty).rows) : r.2 = ms.filter fun m => m.key.key = r.1 := by
  have := foldl_pushVersion_get ms .empty r.1
  rwa [Table.get_of_mem h, Option.getD_some, Table.get_empty, Option.getD_none, List.nil_append] at this

/-! ## A page -/

/-- The entries of one key's versions: the first is the latest. -/
def markLatest (isLatest : Bool) : List Manifest → List ListObjectVersionEntry
  | [] => []
  | m :: ms => ⟨m, isLatest⟩ :: markLatest false ms

def cutVersions (limit : Nat) (entries : List ListObjectVersionEntry) : ListObjectVersionsPage :=
  if entries.length ≤ limit then ⟨entries, false, none⟩ else .cut (entries.take limit)

/-- All entries of the keys. -/
def allVersions (rows : List (Str × List Manifest)) : List ListObjectVersionEntry :=
  rows.flatMap fun r => markLatest true (sortVersions r.2)

theorem versionLoop_eq {limit : Nat} {entries : List ListObjectVersionEntry} (hentries : entries.length ≤ limit)
    (isLatest : Bool) (ms : List Manifest) :
    versionLoop limit entries isLatest ms =
      if (entries ++ markLatest isLatest ms).length ≤ limit then .ok (entries ++ markLatest isLatest ms)
      else .error (.cut ((entries ++ markLatest isLatest ms).take limit)) := by
  induction ms generalizing entries isLatest with
  | nil => simp [versionLoop, markLatest, hentries]
  | cons m ms ih =>
    unfold versionLoop markLatest
    split
    · rename_i hfull
      have hlen : entries.length = limit := le_antisymm hentries hfull
      rw [if_neg (by rw [List.length_append, List.length_cons]; omega), List.take_left' hlen]
    · rename_i hroom
      rw [ih (by rw [List.length_append, List.length_singleton]; omega), List.append_assoc]
      rfl

theorem keyLoop_eq {limit : Nat} {entries : List ListObjectVersionEntry} (hentries : entries.length ≤ limit)
    (rows : List (Str × List Manifest)) :
    keyLoop limit entries rows = cutVersions limit (entries ++ allVersions rows) := by
  induction rows generalizing entries with
  | nil => simp [keyLoop, allVersions, cutVersions, hentries]
  | cons r rows ih =>
    obtain ⟨key, versions⟩ := r
    have hall : entries ++ allVersions ((key, versions) :: rows) =
        (entries ++ markLatest true (sortVersions versions)) ++ allVersions rows := by
      simp [allVersions]
    unfold keyLoop
    rw [hall, versionLoop_eq hentries]
    by_cases hroom : (entries ++ markLatest true (sortVersions versions)).length ≤ limit
    · rw [if_pos hroom]
      exact ih hroom
    · rw [if_neg hroom]
      have htake : (entries ++ markLatest true (sortVersions versions) ++ allVersions rows).take limit =
          (entries ++ markLatest true (sortVersions versions)).take limit := List.take_append_of_le_length (by omega)
      unfold cutVersions
      rw [if_neg (by rw [List.length_append]; omega), htake]

/-- A page is the first `limit` of all entries, truncated when there are more. -/
theorem handleListObjectVersions_eq (db : Db) (req : ListObjectsRequest) :
    handleListObjectVersions db req = cutVersions req.limit (allVersions ((req.scan db).foldl pushVersion .empty).rows) :=
  keyLoop_eq (Nat.zero_le _) _

theorem cutVersions_entries (limit : Nat) (entries : List ListObjectVersionEntry) :
    (cutVersions limit entries).entries = entries.take limit := by
  unfold cutVersions
  split
  · rename_i h
    exact (List.take_of_length_le h).symm
  · rfl

theorem cutVersions_truncated (limit : Nat) (entries : List ListObjectVersionEntry) :
    (cutVersions limit entries).truncated = decide (limit < entries.length) := by
  unfold cutVersions
  split
  · rename_i h
    simp [Nat.not_lt.mpr h]
  · rename_i h
    simp [ListObjectVersionsPage.cut, Nat.not_le.mp h]

theorem markLatest_manifest {isLatest : Bool} {ms : List Manifest} {e : ListObjectVersionEntry}
    (h : e ∈ markLatest isLatest ms) : e.manifest ∈ ms := by
  induction ms generalizing isLatest with
  | nil => cases h
  | cons m ms ih =>
    rcases List.mem_cons.mp h with rfl | h
    · exact List.mem_cons_self ..
    · exact List.mem_cons_of_mem _ (ih h)

/-- Among distinct versions, the entry of the first is the latest. -/
theorem mem_markLatest {ms : List Manifest} (hms : ms.Nodup) {e : ListObjectVersionEntry} :
    e ∈ markLatest true ms ↔ e.manifest ∈ ms ∧ (e.isLatest = true ↔ ms.head? = some e.manifest) := by
  have hrest : ∀ {ms : List Manifest} {e : ListObjectVersionEntry},
      e ∈ markLatest false ms ↔ e.manifest ∈ ms ∧ e.isLatest = false := by
    intro ms
    induction ms with
    | nil => simp [markLatest]
    | cons m ms ih =>
      rintro ⟨x, b⟩
      simp only [markLatest, List.mem_cons, ih, ListObjectVersionEntry.mk.injEq]
      tauto
  cases ms with
  | nil => simp [markLatest]
  | cons m ms =>
    have hm : m ∉ ms := (List.nodup_cons.mp hms).1
    obtain ⟨x, b⟩ := e
    simp only [markLatest, List.mem_cons, hrest, ListObjectVersionEntry.mk.injEq, List.head?_cons, Option.some.injEq]
    constructor
    · rintro (⟨rfl, rfl⟩ | ⟨hx, rfl⟩)
      · simp
      · exact ⟨Or.inr hx, by simp; rintro rfl; exact hm hx⟩
    · rintro ⟨rfl | hx, hb⟩
      · exact Or.inl ⟨rfl, hb.mpr rfl⟩
      · refine Or.inr ⟨hx, ?_⟩
        cases b with
        | false => rfl
        | true => exact absurd (hb.mp rfl ▸ hx) hm

end S3lite
