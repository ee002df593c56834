/-
  S3lite.Listing.Cursor — a listing from any key on (start-after, marker).

  The client may name any string, before, inside or past the keys with the prefix. A walk's
  cursors all lie among those keys, so what holds of walks says nothing here.
  - `ListedAfter`: the items of the current objects with the prefix past the string.
  - `low_key`: the scan sees no other key, unless the string is a key followed by NUL.
  - `first_page_iff`: the page is the first of exactly these items unless a row before the
    prefix blocks the scan, or a version of such a key leaks into it.
  - `a_page_is_blocked`: two objects, the first before the prefix of the second.
-/
import S3lite.Listing.Latest

namespace S3lite

/-! ## The first page -/

/-- The items of the current objects whose key has the prefix and is greater than the string. -/
def ListedAfter (db : Db) (req : ListObjectsRequest) (k : Str) (item : ListItem) : Prop :=
  ∃ key m, IsCurrent db req.bucket key m ∧ req.pre <+: key ∧ k < key ∧ item = rollItem req (key, m)

/-- The page is cut from exactly these items, in ascending order of their names. -/
def FirstPage (listed : ListItem → Prop) (limit : Nat) (page : ListObjectsPage) : Prop :=
  ∃ items, items.Pairwise (fun a b => a.name < b.name) ∧ (∀ item, item ∈ items ↔ listed item) ∧ page = cutPage limit items

theorem cutPage_eq_nil {limit : Nat} {items : List ListItem} (h : cutPage limit [] = cutPage limit items) : items = [] := by
  have hitems := congrArg ListObjectsPage.items h
  have hcut := congrArg ListObjectsPage.truncated h
  rw [cutPage_items, cutPage_items, List.take_nil, eq_comm, List.take_eq_nil_iff] at hitems
  rcases hitems with hl | hnil
  · rw [cutPage_truncated, cutPage_truncated, hl, List.length_nil, decide_eq_decide] at hcut
    exact List.length_eq_zero_iff.mp (Nat.eq_zero_of_not_pos fun hpos => absurd (hcut.mpr hpos) (lt_irrefl 0))
  · exact hnil

/-- A page that begins with another item is the same only when it has no room for either. -/
theorem cutPage_cons_eq {limit : Nat} {x : ListItem} {rest items : List ListItem} (hx : x ∉ items)
    (h : cutPage limit (x :: rest) = cutPage limit items) : limit = 0 ∧ items ≠ [] := by
  have hitems := congrArg ListObjectsPage.items h
  have hcut := congrArg ListObjectsPage.truncated h
  rw [cutPage_items, cutPage_items] at hitems
  cases limit with
  | zero =>
    refine ⟨rfl, fun hnil => ?_⟩
    rw [cutPage_truncated, cutPage_truncated, hnil] at hcut
    simp at hcut
  | succ n =>
    have hmem : x ∈ items.take (n + 1) := hitems ▸ List.mem_cons_self ..
    exact absurd (List.mem_of_mem_take hmem) hx

theorem cutPage_zero {items items' : List ListItem} (h : items ≠ []) (h' : items' ≠ []) : cutPage 0 items = cutPage 0 items' := by
  have hno : ∀ l : List ListItem, l ≠ [] → cutPage 0 l = ⟨[], true, none⟩ := by
    intro l hl
    exact if_neg (by simpa using hl)
  rw [hno items h, hno items' h']

/-! ## What the scan sees -/

/-- A version the scan sees of a key it should not see: the newest of those from the scan's
    start on, and an object. -/
def Leaks (db : Db) (req : ListObjectsRequest) (k : Str) (m : Manifest) : Prop :=
  m.kind = .object ∧ m.key.key ≤ k ∧ req.pre <+: m.key.key ∧
    ((versionsOf db req.bucket m.key.key).filter fun v => req.scanStart ≤ v.key.encode).foldl takeLatest none = some m

section
variable {db : Db} {req : ListObjectsRequest} {k : Str}

theorem low_key (hcur : req.cursor = some (.afterKey k)) {key : ManifestKey} (hk : key.NulFree) (hb : key.bucket = req.bucket)
    (hstart : req.scanStart ≤ key.encode) (hle : key.key ≤ k) : ∃ s, k = key.key ++ 0 :: s := by
  have hpos : req.position = k ++ [1] := by rw [ListObjectsRequest.position, hcur]
  rw [scanStart_eq, hpos, ManifestKey.encode, hb, ← not_lt,
    show req.bucket ++ 0 :: (key.key ++ 0 :: key.versionId) = (req.bucket ++ [0]) ++ (key.key ++ 0 :: key.versionId) by simp,
    show req.bucket ++ 0 :: (k ++ [1]) = (req.bucket ++ [0]) ++ (k ++ [1]) by simp, Word.append_lt_append_iff, not_lt] at hstart
  exact Word.eq_word_of_next_le (fun c => UInt8.le_iff_toNat_le.mpr (Nat.zero_le _)) (by decide) hk.key hle hstart

/-- A string without NUL leaks nothing. -/
theorem no_leak (hdb : WellKeyed db) (hcur : req.cursor = some (.afterKey k)) (hk : NulFree k) (m : Manifest) :
    ¬ Leaks db req k m := by
  rintro ⟨-, hle, -, hfold⟩
  rcases foldl_takeLatest_mem hfold with hm | hm
  · obtain ⟨hm, hstart⟩ := List.mem_filter.mp hm
    obtain ⟨⟨_, hrow⟩, -, hbucket, -⟩ := mem_versionsOf.mp hm
    obtain ⟨s, rfl⟩ := low_key hcur (hdb _ hrow).2 hbucket (of_decide_eq_true hstart) hle
    exact absurd (hk 0 (by simp)) (lt_irrefl _)
  · cases hm

/-- The rows the loop walks at or before the string are of one key. -/
theorem low_rows_eq (hdb : WellKeyed db) (hb : NulFree req.bucket) (hcur : req.cursor = some (.afterKey k))
    {r r' : Str × Manifest} (hr : r ∈ (req.latestByKey db).rows) (hr' : r' ∈ (req.latestByKey db).rows) (hle : r.1 ≤ k)
    (hle' : r'.1 ≤ k) : r.1 = r'.1 := by
  have hlow : ∀ x ∈ (req.latestByKey db).rows, x.1 ≤ k → NulFree x.1 ∧ ∃ s, k = x.1 ++ 0 :: s := by
    intro x hx hxk
    have h := Table.get_of_mem hx
    rw [ListObjectsRequest.latestByKey, foldl_noteLatest_get, Table.get_empty] at h
    rcases foldl_takeLatest_mem h with h | h
    · obtain ⟨hscan, hkey⟩ := List.mem_filter.mp h
      obtain ⟨⟨row, hrow, e, hstart⟩, -, hbucket, -⟩ := mem_scan_row hdb hb hscan
      obtain ⟨henc, hfree⟩ := hdb row hrow
      have hkey : x.2.key.key = x.1 := of_decide_eq_true hkey
      rw [e] at hfree henc
      refine ⟨hkey ▸ hfree.key, ?_⟩
      rw [← hkey] at hxk ⊢
      exact low_key hcur hfree hbucket (henc ▸ hstart) hxk
    · cases h
  obtain ⟨hfree, s, hs⟩ := hlow r hr hle
  obtain ⟨hfree', s', hs'⟩ := hlow r' hr' hle'
  exact (Word.word_injective hfree hfree' (hs.symm.trans hs')).1

theorem remaining_items (hdb : WellKeyed db) (hb : NulFree req.bucket) {item : ListItem} :
    item ∈ remaining db req ↔ ∃ r ∈ (req.latestByKey db).rows, r.2.kind = .object ∧ item = rollItem req r := by
  show item ∈ rollAll req none (req.latestByKey db).rows ↔ _
  rw [rollAll_mem (latestByKey_rows hdb hb) skipBelow_none]
  simp

theorem remaining_sorted (hdb : WellKeyed db) (hb : NulFree req.bucket) :
    (remaining db req).Pairwise fun a b => a.name < b.name :=
  List.pairwise_map.mp (rollAll_ascending (latestByKey_rows hdb hb) skipBelow_none)

/-- The row of a key past the string is that of its latest version. -/
theorem high_row (hdb : WellKeyed db) (hb : NulFree req.bucket) (hfree : ¬ Blocked db req)
    (hcur : req.cursor = some (.afterKey k)) {key : Str} (hpre : req.pre <+: key) (hlt : k < key) :
    (req.latestByKey db).get key = handleGetLatestVersion db req.bucket key := by
  refine (latestAgrees_of_scan hdb hb (scan_unblocked hdb hb hfree hpre fun cur hc => ?_)).objects
  rw [hcur] at hc
  cases hc
  exact not_le.mpr hlt

theorem leak_row (hdb : WellKeyed db) (hb : NulFree req.bucket) (hfree : ¬ Blocked db req) {m : Manifest}
    (h : Leaks db req k m) : (m.key.key, m) ∈ (req.latestByKey db).rows := by
  obtain ⟨-, -, hpre, hfold⟩ := h
  rw [Table.mem_rows, ListObjectsRequest.latestByKey, foldl_noteLatest_get, Table.get_empty, scan_from_start hdb hb hfree hpre]
  exact hfold

/-- What is left at the cursor is listed past the string, or leaks. -/
theorem remaining_cases (hdb : WellKeyed db) (hb : NulFree req.bucket) (hfree : ¬ Blocked db req)
    (hcur : req.cursor = some (.afterKey k)) {item : ListItem} (h : item ∈ remaining db req) :
    ListedAfter db req k item ∨ ∃ m, Leaks db req k m ∧ item = rollItem req (m.key.key, m) := by
  obtain ⟨r, hr, hobj, rfl⟩ := (remaining_items hdb hb).mp h
  have hpre := (latestByKey_rows hdb hb).pre r hr
  have hget := Table.get_of_mem hr
  by_cases hlt : k < r.1
  · rw [high_row hdb hb hfree hcur hpre hlt] at hget
    exact Or.inl ⟨r.1, r.2, ⟨hget, hobj⟩, hpre, hlt, rfl⟩
  · have hown := (latestByKey_rows hdb hb).own r hr
    rw [ListObjectsRequest.latestByKey, foldl_noteLatest_get, Table.get_empty, scan_from_start hdb hb hfree hpre] at hget
    refine Or.inr ⟨r.2, ⟨hobj, ?_, ?_, ?_⟩, by rw [hown]⟩ <;> rw [hown]
    · exact not_lt.mp hlt
    · exact hpre
    · exact hget

theorem remaining_of_listed (hdb : WellKeyed db) (hb : NulFree req.bucket) (hfree : ¬ Blocked db req)
    (hcur : req.cursor = some (.afterKey k)) {item : ListItem} (h : ListedAfter db req k item) : item ∈ remaining db req := by
  obtain ⟨key, m, ⟨hget, hobj⟩, hpre, hlt, rfl⟩ := h
  refine (remaining_items hdb hb).mpr ⟨(key, m), Table.mem_rows.mpr ?_, hobj, rfl⟩
  rw [high_row hdb hb hfree hcur hpre hlt, hget]

/-- What leaks comes first. -/
theorem remaining_of_leak (hdb : WellKeyed db) (hb : NulFree req.bucket) (hfree : ¬ Blocked db req)
    (hcur : req.cursor = some (.afterKey k)) {m : Manifest} (h : Leaks db req k m) :
    ∃ rest, remaining db req = rollItem req (m.key.key, m) :: rest := by
  have hmem := leak_row hdb hb hfree h
  have hlow : ∀ r ∈ (req.latestByKey db).rows, r.1 ≤ k → r.1 = m.key.key :=
    fun r hr hle => low_rows_eq hdb hb hcur hr hmem hle h.2.1
  have hsorted := (req.latestByKey db).sorted
  show ∃ rest, rollAll req none (req.latestByKey db).rows = _
  cases hrows : (req.latestByKey db).rows with
  | nil =>
    rw [hrows] at hmem
    cases hmem
  | cons r rest =>
    rw [hrows] at hmem hlow hsorted
    rcases List.mem_cons.mp hmem with rfl | hin
    · refine ⟨rollAll req (commonPrefixOf req.pre req.delimiter m.key.key) rest, ?_⟩
      rw [rollAll, if_neg (not_not.mpr h.1)]
      rfl
    · -- a row before it would be of a key at or before the string too
      have hlt : r.1 < m.key.key := (List.pairwise_cons.mp hsorted).1 _ hin
      exact absurd (hlow r (List.mem_cons_self ..) (hlt.le.trans h.2.1)) hlt.ne

end

/-- The scan from the string on is neither blocked nor lists what it should not: an item that
    leaks is listed anyway, or the page has no room for it. -/
def Resumes (db : Db) (req : ListObjectsRequest) (k : Str) : Prop :=
  (Blocked db req → ∀ item, ¬ ListedAfter db req k item) ∧
    (¬ Blocked db req → ∀ m, Leaks db req k m →
      ListedAfter db req k (rollItem req (m.key.key, m)) ∨ req.limit = 0 ∧ ∃ item, ListedAfter db req k item)

theorem first_page_iff {db : Db} {req : ListObjectsRequest} {k : Str} (hdb : WellKeyed db) (hb : NulFree req.bucket)
    (hcur : req.cursor = some (.afterKey k)) :
    FirstPage (ListedAfter db req k) req.limit (handleListObjects db req) ↔ Resumes db req k := by
  rw [handleListObjects_eq]
  by_cases hblocked : Blocked db req
  · have hnone : remaining db req = [] := by rw [remaining, scan_blocked hdb hb hblocked]; rfl
    rw [hnone]
    constructor
    · rintro ⟨items, -, hmem, hpage⟩
      refine ⟨fun _ item hitem => ?_, fun h => absurd hblocked h⟩
      rw [← hmem, cutPage_eq_nil hpage] at hitem
      cases hitem
    · intro h
      exact ⟨[], .nil, fun item => iff_of_false List.not_mem_nil (h.1 hblocked item), rfl⟩
  have hlisted : ∀ item, ListedAfter db req k item → item ∈ remaining db req :=
    fun item => remaining_of_listed hdb hb hblocked hcur
  constructor
  · rintro ⟨items, -, hmem, hpage⟩
    refine ⟨fun h => absurd h hblocked, fun _ m hleak => ?_⟩
    obtain ⟨rest, hrest⟩ := remaining_of_leak hdb hb hblocked hcur hleak
    by_cases hx : rollItem req (m.key.key, m) ∈ items
    · exact Or.inl ((hmem _).mp hx)
    · rw [hrest] at hpage
      obtain ⟨hlimit, hne⟩ := cutPage_cons_eq hx hpage
      obtain ⟨item, hitem⟩ := List.exists_mem_of_ne_nil items hne
      exact Or.inr ⟨hlimit, item, (hmem item).mp hitem⟩
  · rintro ⟨-, h⟩
    by_cases hall : ∀ m, Leaks db req k m → ListedAfter db req k (rollItem req (m.key.key, m))
    · refine ⟨remaining db req, remaining_sorted hdb hb, fun item => ⟨fun hm => ?_, hlisted item⟩, rfl⟩
      rcases remaining_cases hdb hb hblocked hcur hm with hl | ⟨m, hleak, rfl⟩
      · exact hl
      · exact hall m hleak
    · -- no room: both lists have items, and the page is cut before the first
      simp only [not_forall] at hall
      obtain ⟨m, hleak, hnot⟩ := hall
      obtain ⟨hlimit, item, hitem⟩ := (h hblocked m hleak).resolve_left hnot
      classical
      refine ⟨(remaining db req).filter fun item => ListedAfter db req k item, (remaining_sorted hdb hb).filter _,
        fun item => ?_, ?_⟩
      · rw [List.mem_filter, decide_eq_true_eq]
        exact ⟨fun h => h.2, fun h => ⟨hlisted item h, h⟩⟩
      · rw [hlimit]
        have hin : item ∈ (remaining db req).filter fun item => ListedAfter db req k item :=
          List.mem_filter.mpr ⟨hlisted item hitem, decide_eq_true hitem⟩
        exact cutPage_zero (List.ne_nil_of_mem (hlisted item hitem)) (List.ne_nil_of_mem hin)

/-- Objects `p` and `q` of bucket `b`. -/
def twoLetters : Db := dbOf [bare ⟨[98], [112], [118]⟩ .committed [], bare ⟨[98], [113], [118]⟩ .committed []]

def pastP : ListObjectsRequest := ⟨[98], [], none, some (.afterKey [112]), 1⟩

theorem first_page_past_a_key :
    FirstPage (ListedAfter twoLetters pastP [112]) pastP.limit (handleListObjects twoLetters pastP) ↔
      Resumes twoLetters pastP [112] := by
  refine first_page_iff (dbOf_wellKeyed fun m hm => ?_) (by decide) rfl
  simp only [List.mem_cons, List.not_mem_nil, or_false] at hm
  rcases hm with rfl | rfl <;> exact ⟨by decide, by decide, by decide⟩

/-- From `a` on, the objects with prefix `p`: the scan meets `b` and stops. -/
def pFromA : ListObjectsRequest := ⟨str "bucket", str "p", none, some (.afterKey (str "a")), 1000⟩

theorem a_page_is_blocked :
    ¬ ∀ c, Running sampleEnv (ServesOnly sampleEnv Request.writesObjects false) (fun _ _ _ => True) c →
      FirstPage (ListedAfter c.world.db pFromA (str "a")) pFromA.limit (handleListObjects c.world.db pFromA) := by
  apply running_refutes 1 twoObjects (fun _ _ _ => true)
    fun c => ((handleGetLatestVersion c.world.db (str "bucket") (str "p")).any fun m => decide (m.kind = .object)) &&
      (handleListObjects c.world.db pFromA).items.isEmpty
  · exact fun _ _ _ _ _ => trivial
  · rfl
  · rfl
  · rintro c hq ⟨items, -, hmem, hpage⟩
    rw [Bool.and_eq_true, Option.any_eq_true, List.isEmpty_iff] at hq
    obtain ⟨⟨m, hm, hobj⟩, hempty⟩ := hq
    have hlisted : ListedAfter c.world.db pFromA (str "a") (rollItem pFromA (str "p", m)) :=
      ⟨str "p", m, ⟨hm, of_decide_eq_true hobj⟩, List.prefix_refl _, by decide, rfl⟩
    rw [hpage, cutPage_items, List.take_eq_nil_iff] at hempty
    rcases hempty with hlimit | hnil
    · cases hlimit
    · have hin := (hmem _).mpr hlisted
      rw [hnil] at hin
      cases hin

end S3lite
