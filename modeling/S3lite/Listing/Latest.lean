/-
  S3lite.Listing.Latest — the four places that decide which committed version of a key is
  the latest: `get_latest_version`, `list_objects`, `list_object_versions` and the lifecycle
  sweep.

  - `find_sortVersions` (Listing.Versions) and `get_latest_eq`: a stable sort and a running
    strict maximum choose alike, also between versions of one time.
  - `latest_agrees_iff`: so the four agree on every key with a version, exactly if the scan
    of the listings gets to it: it stops at the first committed row without the prefix, and
    from a cursor before the prefix such a row may come first
    (`a_key_is_hidden_by_the_cursor`).
-/
import S3lite.Listing.Versions
import S3lite.Safety.Buckets

namespace S3lite

/-! ## Cursors before the prefix -/

/-- The keys a cursor leaves behind. -/
def ListCursor.Excludes : ListCursor → Str → Prop
  | .afterKey k, key => key ≤ k
  | .afterPrefix p, key => key ≤ p ∨ p <+: key

/-- A committed row that the scan meets and whose key comes before the prefix. -/
def Blocked (db : Db) (req : ListObjectsRequest) : Prop :=
  ∃ r ∈ db.objects.rows, r.2.state = .committed ∧ r.2.key.bucket = req.bucket ∧ req.scanStart ≤ r.1 ∧
    r.2.key.key < req.pre

/-- Right after a word come the clear words greater than it. -/
theorem next_le_of_lt {k key : Str} (hk : NulFree key) (h : k < key) : k ++ [1] ≤ key := by
  induction k generalizing key with
  | nil =>
    cases key with
    | nil => exact absurd h (lt_irrefl _)
    | cons c key =>
      rw [List.nil_append, ← not_lt, List.cons_lt_cons_iff]
      have hc : 1 ≤ c := zero_lt_iff_one_le c |>.mp hk.head
      rintro (hlt | ⟨-, hlt⟩)
      · exact absurd hlt (not_lt.mpr hc)
      · exact List.not_lt_nil _ hlt
  | cons a k ih =>
    cases key with
    | nil => exact absurd h (List.not_lt_nil _)
    | cons c key =>
      rw [List.cons_append, ← not_lt, List.cons_lt_cons_iff]
      rintro (hlt | ⟨rfl, hlt⟩)
      · rcases List.cons_lt_cons_iff.mp h with h' | ⟨h', -⟩
        · exact lt_asymm h' hlt
        · exact (ne_of_lt hlt) h'.symm
      · rcases List.cons_lt_cons_iff.mp h with h' | ⟨-, h'⟩
        · exact lt_irrefl _ h'
        · exact absurd hlt (not_lt.mpr (ih hk.tail h'))

/-- A word of last bytes only is a prefix of every word at or after it. -/
theorem prefix_of_bumpLast_none {p key : Bytes} (hp : bumpLast p = none) (h : p ≤ key) : p <+: key := by
  induction p generalizing key with
  | nil => exact List.nil_prefix
  | cons a p ih =>
    have hrest : bumpLast p = none ∧ ¬ a < 0xff := by
      unfold bumpLast at hp
      cases hb : bumpLast p with
      | some cs => rw [hb] at hp; cases hp
      | none => rw [hb] at hp; exact ⟨rfl, fun ha => by simp [ha] at hp⟩
    cases key with
    | nil => exact absurd h (by simp [← not_lt])
    | cons c key =>
      rw [← not_lt, List.cons_lt_cons_iff, not_or, not_lt] at h
      have hca : c = a := le_antisymm (by
        have hmax : c ≤ 0xff := UInt8.le_iff_toNat_le.mpr (Nat.le_of_lt_succ c.toNat_lt)
        exact hmax.trans (not_lt.mp hrest.2)) h.1
      subst hca
      exact List.cons_prefix_cons.mpr ⟨rfl, ih hrest.1 (not_lt.mp fun hlt => h.2 ⟨rfl, hlt⟩)⟩

/-- Past a prefix come the words greater than it that do not have it. -/
theorem afterPrefix_le_of_lt {p key : Bytes} (h : p < key) (hp : ¬ p <+: key) : (bumpLast p).getD (p ++ [1]) ≤ key := by
  induction p generalizing key with
  | nil => exact absurd List.nil_prefix hp
  | cons a p ih =>
    cases key with
    | nil => exact absurd h (List.not_lt_nil _)
    | cons c key =>
      unfold bumpLast
      rcases List.cons_lt_cons_iff.mp h with hac | ⟨rfl, hlt⟩
      · have ha : a < 0xff := lt_of_lt_of_le hac (UInt8.le_iff_toNat_le.mpr (Nat.le_of_lt_succ c.toNat_lt))
        cases bumpLast p with
        | some cs => exact (List.cons_lt_cons_iff.mpr (Or.inl hac)).le
        | none =>
          simp only [ha, if_true, Option.getD_some]
          rw [← not_lt, List.cons_lt_cons_iff]
          rintro (hlt | ⟨-, hlt⟩)
          · exact absurd hlt (not_lt.mpr ((lt_iff_succ_le ha c).mp hac))
          · exact List.not_lt_nil _ hlt
      · have hp' : ¬ p <+: key := fun h' => hp (List.cons_prefix_cons.mpr ⟨rfl, h'⟩)
        have hle := ih hlt hp'
        cases hb : bumpLast p with
        | none => exact absurd (prefix_of_bumpLast_none hb hlt.le) hp'
        | some cs =>
          rw [hb, Option.getD_some] at hle
          simp only [Option.getD_some]
          rw [← not_lt, List.cons_lt_cons_iff]
          rintro (hlt | ⟨-, hlt⟩)
          · exact lt_irrefl _ hlt
          · exact absurd hlt (not_lt.mpr hle)

section
variable {db : Db} {req : ListObjectsRequest} {key : Str}

/-- The scan starts at or before every row of a key with the prefix that the cursor leaves. -/
theorem scanStart_le {k : ManifestKey} (hk : k.NulFree) (hb : k.bucket = req.bucket) (hpre : req.pre <+: k.key)
    (hc : ∀ cur, req.cursor = some cur → ¬ cur.Excludes k.key) : req.scanStart ≤ k.encode := by
  have hposition : req.position ≤ k.key ++ 0 :: k.versionId := by
    unfold ListObjectsRequest.position
    rcases hcur : req.cursor with _ | ⟨k0⟩ | ⟨p⟩
    · exact Word.le_of_prefix (hpre.trans (List.prefix_append k.key _))
    · have h : k0 < k.key := not_le.mp (hc _ hcur)
      exact (next_le_of_lt hk.key h).trans (Word.le_append _ _)
    · obtain ⟨h1, h2⟩ := not_or.mp (hc _ hcur)
      exact (afterPrefix_le_of_lt (not_le.mp h1) h2).trans (Word.le_append _ _)
  rw [scanStart_eq, ManifestKey.encode, hb, ← not_lt]
  intro hlt
  rw [show req.bucket ++ 0 :: (k.key ++ 0 :: k.versionId) = (req.bucket ++ [0]) ++ (k.key ++ 0 :: k.versionId) by simp,
    show req.bucket ++ 0 :: req.position = (req.bucket ++ [0]) ++ req.position by simp, Word.append_lt_append_iff] at hlt
  exact absurd hlt (not_lt.mpr hposition)

/-- Rows of one bucket come in the order of their keys. -/
theorem key_le_of_row_lt {a b : Bytes × Manifest} (ha : a.2.key.NulFree) (hb : b.2.key.NulFree)
    (hrow : a.2.key.encode < b.2.key.encode) (hbucket : a.2.key.bucket = b.2.key.bucket) : a.2.key.key ≤ b.2.key.key := by
  rw [ManifestKey.encode, ManifestKey.encode, Word.word_lt_word_iff ha.bucket hb.bucket] at hrow
  rcases hrow with h | ⟨-, h⟩
  · exact absurd (hbucket ▸ h) (lt_irrefl _)
  · rcases (Word.word_lt_word_iff ha.key hb.key).mp h with h | ⟨h, -⟩
    · exact h.le
    · exact h.le

/-! ## The scan -/

theorem mem_scanCommitted {pre : Str} {rows : List (Bytes × Manifest)} {m : Manifest} (h : m ∈ scanCommitted pre rows) :
    (∃ r ∈ rows, r.2 = m) ∧ m.state = .committed ∧ pre <+: m.key.key := by
  induction rows with
  | nil => exact absurd h List.not_mem_nil
  | cons r rows ih =>
    unfold scanCommitted at h
    split at h
    · obtain ⟨⟨x, hx, e⟩, h'⟩ := ih h
      exact ⟨⟨x, List.mem_cons_of_mem _ hx, e⟩, h'⟩
    · rename_i hs
      split at h
      · cases h
      · rename_i hp
        rcases List.mem_cons.mp h with rfl | h
        · exact ⟨⟨r, List.mem_cons_self .., rfl⟩, not_not.mp hs, not_not.mp hp⟩
        · obtain ⟨⟨x, hx, e⟩, h'⟩ := ih h
          exact ⟨⟨x, List.mem_cons_of_mem _ hx, e⟩, h'⟩

/-- The scan yields committed rows of the bucket, from its start on, with the prefix. -/
theorem mem_scan_row (hdb : WellKeyed db) (hb : NulFree req.bucket) {m : Manifest} (hm : m ∈ req.scan db) :
    (∃ r ∈ db.objects.rows, r.2 = m ∧ req.scanStart ≤ r.1) ∧ m.state = .committed ∧ m.key.bucket = req.bucket ∧
      req.pre <+: m.key.key := by
  obtain ⟨⟨r, hr, rfl⟩, hs, hp⟩ := mem_scanCommitted hm
  obtain ⟨hr, hrange⟩ := Table.mem_range.mp hr
  obtain ⟨hrow, hk⟩ := hdb r hr
  have hin := hrange
  rw [scanStart_eq, hrow] at hin
  exact ⟨⟨r, hr, rfl, hrange.1⟩, hs, ((mem_row_range hk hb).mp hin).1, hp⟩

theorem mem_scan_versionsOf (hdb : WellKeyed db) (hb : NulFree req.bucket) {m : Manifest} (hm : m ∈ req.scan db) :
    m ∈ versionsOf db req.bucket m.key.key ∧ req.pre <+: m.key.key := by
  obtain ⟨⟨r, hr, e, -⟩, hs, hbucket, hp⟩ := mem_scan_row hdb hb hm
  exact ⟨mem_versionsOf.mpr ⟨⟨r.1, e ▸ hr⟩, hs, hbucket, rfl⟩, hp⟩

/-- A scan that meets no key before the prefix loses no row with the prefix. -/
theorem scan_eq_of_unblocked (hdb : WellKeyed db) (hb : NulFree req.bucket) (hfree : ¬ Blocked db req) :
    req.scan db = ((db.objects.range req.scanStart (req.bucket ++ [1])).map (·.2)).filter fun m =>
      m.state = .committed ∧ req.pre <+: m.key.key := by
  refine scanCommitted_eq ((Table.range_sorted _ _ _).imp_of_mem ?_)
  intro a b ha hb' hab hs hp
  obtain ⟨ha, ha'⟩ := Table.mem_range.mp ha
  obtain ⟨hb', hb''⟩ := Table.mem_range.mp hb'
  obtain ⟨hak, han⟩ := hdb a ha
  obtain ⟨hbk, hbn⟩ := hdb b hb'
  rw [scanStart_eq, hak] at ha'
  rw [scanStart_eq, hbk] at hb''
  have hab1 := ((mem_row_range han hb).mp ha').1
  have hle := key_le_of_row_lt han hbn (by rwa [← hak, ← hbk]) (hab1.trans ((mem_row_range hbn hb).mp hb'').1.symm)
  -- the row is no blocker, so its key lies between the prefix and a key that has it
  have hpa : req.pre ≤ a.2.key.key := not_lt.mp fun hlt => hfree ⟨a, ha, hs, hab1, by rw [scanStart_eq, hak]; exact ha'.1, hlt⟩
  exact Word.prefix_of_between (List.prefix_refl _) hp hpa hle

/-- Of a key with the prefix it sees the versions from its start on. -/
theorem scan_from_start (hdb : WellKeyed db) (hb : NulFree req.bucket) (hfree : ¬ Blocked db req) (hpre : req.pre <+: key) :
    (req.scan db).filter (fun m => m.key.key = key) =
      (versionsOf db req.bucket key).filter fun m => req.scanStart ≤ m.key.encode := by
  rw [scan_eq_of_unblocked hdb hb hfree]
  unfold versionsOf Table.range
  simp only [List.filter_map, List.filter_filter]
  congr 1
  refine List.filter_congr fun r hr => ?_
  obtain ⟨hrow, hk⟩ := hdb r hr
  by_cases hkey : r.2.key.key = key
  · subst hkey
    by_cases hbucket : r.2.key.bucket = req.bucket
    · have hend : r.2.key.encode < req.bucket ++ [1] := by
        have := (mem_row_range (s := []) hk hb).mpr ⟨hbucket, by rw [← not_lt]; exact List.not_lt_nil _⟩
        exact this.2
      simp [hrow, hend, hbucket, hpre, Bool.and_comm]
    · have hout : ¬ (req.scanStart ≤ r.1 ∧ r.1 < req.bucket ++ [1]) := by
        rw [scanStart_eq, hrow]
        exact fun h => hbucket ((mem_row_range hk hb).mp h).1
      simp only [Function.comp, hbucket, hout, decide_false, Bool.and_false, and_false, false_and]
  · simp [hkey]

/-- So it sees every version of a key it starts before. -/
theorem scan_unblocked (hdb : WellKeyed db) (hb : NulFree req.bucket) (hfree : ¬ Blocked db req) (hpre : req.pre <+: key)
    (hc : ∀ cur, req.cursor = some cur → ¬ cur.Excludes key) :
    (req.scan db).filter (fun m => m.key.key = key) = versionsOf db req.bucket key := by
  rw [scan_from_start hdb hb hfree hpre, List.filter_eq_self]
  intro m hm
  obtain ⟨⟨k, hrow⟩, -, hbucket, rfl⟩ := mem_versionsOf.mp hm
  exact decide_eq_true (scanStart_le (hdb _ hrow).2 hbucket hpre hc)

/-- A scan that meets a key before the prefix stops there. -/
theorem scan_blocked (hdb : WellKeyed db) (hb : NulFree req.bucket) (h : Blocked db req) : req.scan db = [] := by
  obtain ⟨r0, hr0, hs0, hb0, hstart, hlt⟩ := h
  have hrow0 := hdb r0 hr0
  have hmem : r0 ∈ db.objects.range req.scanStart (req.bucket ++ [1]) := by
    refine Table.mem_range.mpr ⟨hr0, hstart, ?_⟩
    rw [hrow0.1]
    exact ((mem_row_range (s := []) hrow0.2 hb).mpr ⟨hb0, by rw [← not_lt]; exact List.not_lt_nil _⟩).2
  have hstop : ∀ {rows : List (Bytes × Manifest)}, (rows.Pairwise fun a b => a.1 < b.1) →
      (∀ r ∈ rows, r ∈ db.objects.rows ∧ r.2.key.bucket = req.bucket) → r0 ∈ rows → scanCommitted req.pre rows = [] := by
    intro rows
    induction rows with
    | nil => exact fun _ _ h => absurd h List.not_mem_nil
    | cons r rows ih =>
      intro hsorted hrows hin
      obtain ⟨hr, hsorted⟩ := List.pairwise_cons.mp hsorted
      have hnot : ¬ req.pre <+: r.2.key.key := by
        intro hp
        -- a row at or before the blocker has no key from the prefix on
        have hle : r.2.key.key ≤ r0.2.key.key := by
          rcases List.mem_cons.mp hin with rfl | hin
          · exact le_rfl
          · obtain ⟨hmem, hbucket⟩ := hrows r (List.mem_cons_self ..)
            obtain ⟨hrow, hk⟩ := hdb r hmem
            exact key_le_of_row_lt hk hrow0.2 (by rw [← hrow, ← hrow0.1]; exact hr r0 hin) (hbucket.trans hb0.symm)
        exact absurd ((Word.le_of_prefix hp).trans hle) (not_le.mpr hlt)
      unfold scanCommitted
      split
      · rename_i hs
        refine ih hsorted (fun x hx => hrows x (List.mem_cons_of_mem _ hx)) ?_
        rcases List.mem_cons.mp hin with rfl | hin
        · exact absurd hs0 hs
        · exact hin
      · rfl
  refine hstop (Table.range_sorted _ _ _) (fun r hr => ?_) hmem
  obtain ⟨hr, hrange⟩ := Table.mem_range.mp hr
  obtain ⟨hrow, hk⟩ := hdb r hr
  rw [scanStart_eq, hrow] at hrange
  exact ⟨hr, ((mem_row_range hk hb).mp hrange).1⟩

end

/-! ## The four choices -/

/-- `latest_by_key` of `list_objects`. -/
def ListObjectsRequest.latestByKey (req : ListObjectsRequest) (db : Db) : Table Str Manifest :=
  (req.scan db).foldl noteLatest .empty

/-- `current_version_id` of the lifecycle sweep. -/
def sweepCurrent (db : Db) (bucket key : Str) : Option Str :=
  let byKey := (handleListAllManifestsInBucket db bucket).foldl pushVersion .empty
  ((sortVersions ((byKey.get key).getD [])).find? fun m => m.state = .committed).map (·.key.versionId)

/-- The listings' pages and the sweep decide on the latest version of the key as
    `get_latest_version` does. -/
structure LatestAgrees (db : Db) (req : ListObjectsRequest) (key : Str) : Prop where
  /-- `list_objects` goes by the latest version … -/
  objects : (req.latestByKey db).get key = handleGetLatestVersion db req.bucket key
  /-- … lists no other version of the key, and it only as an object … -/
  listed : ∀ m, .object m ∈ (handleListObjects db req).items → m.key.key = key →
    handleGetLatestVersion db req.bucket key = some m ∧ m.kind = .object
  /-- … and lists it if it is an object, unless the page is cut before. -/
  complete : (handleListObjects db req).truncated = false → ∀ m, handleGetLatestVersion db req.bucket key = some m →
    m.kind = .object → rollItem req (key, m) ∈ (handleListObjects db req).items
  /-- A page of versions marks the latest version only … -/
  marked : ∀ e ∈ (handleListObjectVersions db req).entries, e.manifest.key.key = key →
    (e.isLatest = true ↔ handleGetLatestVersion db req.bucket key = some e.manifest)
  /-- … and has it, unless it is cut before. -/
  shown : (handleListObjectVersions db req).truncated = false → ∀ m,
    handleGetLatestVersion db req.bucket key = some m → ⟨m, true⟩ ∈ (handleListObjectVersions db req).entries
  /-- The sweep treats the latest version as current, and no other manifest. -/
  current : ∀ m ∈ handleListAllManifestsInBucket db req.bucket, m.key.key = key →
    (sweepCurrent db req.bucket key = some m.key.versionId ↔ handleGetLatestVersion db req.bucket key = some m)

section
variable {db : Db} {req : ListObjectsRequest} {key : Str}

theorem rows_nodup (hdb : WellKeyed db) : (db.objects.rows.map (·.2)).Nodup := by
  refine List.Nodup.map_on ?_ (db.objects.sorted.imp fun h => ?_)
  · intro a ha b hb e
    refine Prod.ext ?_ e
    rw [(hdb a ha).1, (hdb b hb).1, e]
  · intro e
    exact absurd (e ▸ h) (lt_irrefl _)

theorem versionsOf_nodup (hdb : WellKeyed db) (bucket key : Str) : (versionsOf db bucket key).Nodup :=
  (rows_nodup hdb).filter _

/-- A key's manifests differ in their version ids. -/
theorem eq_of_versionId (hdb : WellKeyed db) {m m' : Manifest} (hm : ∃ k, (k, m) ∈ db.objects.rows)
    (hm' : ∃ k, (k, m') ∈ db.objects.rows) (h : m.key = m'.key) : m = m' := by
  obtain ⟨k, hk⟩ := hm
  obtain ⟨k', hk'⟩ := hm'
  have e : k = k' := ((hdb _ hk).1.trans (congrArg ManifestKey.encode h)).trans (hdb _ hk').1.symm
  exact congrArg Prod.snd (db.objects.key_unique hk hk' e)

theorem sweepCurrent_eq (hdb : WellKeyed db) (bucket key : Str) :
    sweepCurrent db bucket key = (handleGetLatestVersion db bucket key).map (·.key.versionId) := by
  have hgroup : ((handleListAllManifestsInBucket db bucket).filter fun m => m.key.key = key).filter (fun m => m.state = .committed) =
      versionsOf db bucket key := by
    unfold handleListAllManifestsInBucket versionsOf bucketRange Table.range
    simp only [List.filter_map, List.filter_filter]
    congr 1
    refine List.filter_congr fun r hr => ?_
    by_cases hb : r.2.key.bucket = bucket
    · have hrange := (Table.mem_range.mp (hb ▸ mem_bucketRange hdb hr)).2
      simp [hb, hrange]
    · simp [hb]
  unfold sweepCurrent
  simp only
  rw [find_sortVersions, foldl_pushVersion_get, Table.get_empty, Option.getD_none, List.nil_append, hgroup, get_latest_eq hdb]

theorem mem_listAll {m : Manifest} {bucket : Str} (h : m ∈ handleListAllManifestsInBucket db bucket) :
    (∃ k, (k, m) ∈ db.objects.rows) ∧ m.key.bucket = bucket := by
  unfold handleListAllManifestsInBucket bucketRange at h
  obtain ⟨h, hbucket⟩ := List.mem_filter.mp h
  obtain ⟨⟨k, _⟩, hr, rfl⟩ := List.mem_map.mp h
  exact ⟨⟨k, (Table.mem_range.mp hr).1⟩, of_decide_eq_true hbucket⟩

/-- The current version id is that of the latest version alone. -/
theorem sweepCurrent_iff (hdb : WellKeyed db) {bucket : Str} {m : Manifest} (hm : m ∈ handleListAllManifestsInBucket db bucket) :
    sweepCurrent db bucket m.key.key = some m.key.versionId ↔ handleGetLatestVersion db bucket m.key.key = some m := by
  obtain ⟨hmrow, hmbucket⟩ := mem_listAll hm
  rw [sweepCurrent_eq hdb]
  constructor
  · intro h
    obtain ⟨l, hl, hv⟩ := Option.map_eq_some_iff.mp h
    obtain ⟨hrow, -, hbucket, hlkey⟩ := mem_versionsOf.mp (get_latest_mem hdb hl)
    have hkeys : l.key = m.key := by
      have e1 := hbucket.trans hmbucket.symm
      cases hk : l.key
      cases hk' : m.key
      simp only [hk, hk'] at e1 hlkey hv
      rw [e1, hlkey, hv]
    rw [hl, eq_of_versionId hdb hrow hmrow hkeys]
  · intro h
    rw [h, Option.map_some]

theorem latestByKey_rows (hdb : WellKeyed db) (hb : NulFree req.bucket) : LoopRows req (req.latestByKey db).rows := by
  have hmem : ∀ r ∈ (req.latestByKey db).rows, r.2 ∈ req.scan db ∧ r.2.key.key = r.1 := by
    intro r hr
    have h := Table.get_of_mem hr
    unfold ListObjectsRequest.latestByKey at h
    rw [foldl_noteLatest_get, Table.get_empty] at h
    rcases foldl_takeLatest_mem h with h | h
    · obtain ⟨hscan, hkey⟩ := List.mem_filter.mp h
      exact ⟨hscan, of_decide_eq_true hkey⟩
    · cases h
  refine ⟨Table.sorted _, fun r hr => (hmem r hr).2, fun r hr => ?_⟩
  rw [← (hmem r hr).2]
  exact (mem_scan_versionsOf hdb hb (hmem r hr).1).2

/-- If the scan sees the key's versions, the four agree. -/
theorem latestAgrees_of_scan (hdb : WellKeyed db) (hb : NulFree req.bucket)
    (hscan : (req.scan db).filter (fun m => m.key.key = key) = versionsOf db req.bucket key) : LatestAgrees db req key := by
  have hobjects : (req.latestByKey db).get key = handleGetLatestVersion db req.bucket key := by
    unfold ListObjectsRequest.latestByKey
    rw [foldl_noteLatest_get, Table.get_empty, hscan, get_latest_eq hdb]
  have hrows := latestByKey_rows hdb hb
  have hitems : handleListObjects db req = cutPage req.limit (rollAll req none (req.latestByKey db).rows) :=
    handleListObjects_eq db req
  have hentries := handleListObjectVersions_eq db req
  -- of the key's entries, all come from its own versions
  have hgroup : ∀ r ∈ ((req.scan db).foldl pushVersion .empty).rows, r.1 = key →
      (sortVersions r.2).Nodup ∧ (sortVersions r.2).head? = handleGetLatestVersion db req.bucket key ∧
        ∀ m, m ∈ sortVersions r.2 ↔ m ∈ versionsOf db req.bucket key := by
    intro r hr e
    have h2 : r.2 = versionsOf db req.bucket key := by rw [mem_pushVersion_rows hr, e, hscan]
    have hperm : (sortVersions r.2).Perm r.2 := List.perm_insertionSort _ _
    refine ⟨hperm.nodup_iff.mpr (h2 ▸ versionsOf_nodup hdb _ _), ?_, fun m => by rw [hperm.mem_iff, h2]⟩
    rw [head_sortVersions, h2, get_latest_eq hdb]
  have howner : ∀ e ∈ allVersions ((req.scan db).foldl pushVersion .empty).rows, e.manifest.key.key = key →
      ∃ r ∈ ((req.scan db).foldl pushVersion .empty).rows, r.1 = key ∧ e ∈ markLatest true (sortVersions r.2) := by
    intro e he hkey
    obtain ⟨r, hr, hmark⟩ := List.mem_flatMap.mp he
    have hm : e.manifest ∈ r.2 := (List.perm_insertionSort _ _).mem_iff.mp (markLatest_manifest hmark)
    rw [mem_pushVersion_rows hr] at hm
    exact ⟨r, hr, (of_decide_eq_true (List.mem_filter.mp hm).2).symm.trans hkey, hmark⟩
  refine ⟨hobjects, ?_, ?_, ?_, ?_, ?_⟩
  · intro m hm hkey
    rw [hitems, cutPage_items] at hm
    obtain ⟨r, hr, hobj, -, e⟩ := (rollAll_mem hrows skipBelow_none).mp (List.mem_of_mem_take hm)
    unfold rollItem at e
    split at e
    · cases e
    · cases e
      have hget := Table.get_of_mem hr
      rw [← hrows.own r hr, hkey, hobjects] at hget
      exact ⟨hget, hobj⟩
  · intro hcut m hm hobj
    rw [hitems, cutPage_truncated, decide_eq_false_iff_not, not_lt] at hcut
    rw [hitems, cutPage_items, List.take_of_length_le hcut, rollAll_mem hrows skipBelow_none]
    exact ⟨(key, m), Table.mem_rows.mpr (hobjects.trans hm), hobj, fun _ h => (by cases h), rfl⟩
  · intro e he hkey
    rw [hentries, cutVersions_entries] at he
    obtain ⟨r, hr, hr1, hmark⟩ := howner e (List.mem_of_mem_take he) hkey
    obtain ⟨hnodup, hhead, -⟩ := hgroup r hr hr1
    rw [((mem_markLatest hnodup).mp hmark).2, hhead]
  · intro hcut m hm
    rw [hentries, cutVersions_truncated, decide_eq_false_iff_not, not_lt] at hcut
    rw [hentries, cutVersions_entries, List.take_of_length_le hcut]
    have hmem := get_latest_mem hdb hm
    have hin : m ∈ (req.scan db).filter fun m => m.key.key = key := hscan ▸ hmem
    obtain ⟨hin, hk⟩ := List.mem_filter.mp hin
    obtain ⟨ms, hms⟩ := Option.isSome_iff_exists.mp
      ((foldl_pushVersion_isSome (req.scan db) .empty key).mpr (Or.inr ⟨m, hin, of_decide_eq_true hk⟩))
    have hr := Table.mem_rows.mpr hms
    obtain ⟨hnodup, hhead, hmemiff⟩ := hgroup _ hr rfl
    exact List.mem_flatMap.mpr ⟨_, hr, (mem_markLatest hnodup).mpr ⟨(hmemiff m).mpr hmem, by simp [hhead, hm]⟩⟩
  · intro m hm hkey
    rw [← hkey]
    exact sweepCurrent_iff hdb hm

/-- A key without versions: none of the four has one. -/
theorem scan_no_versions (hdb : WellKeyed db) (hb : NulFree req.bucket) (h : versionsOf db req.bucket key = []) :
    (req.scan db).filter (fun m => m.key.key = key) = versionsOf db req.bucket key := by
  rw [h, List.filter_eq_nil_iff]
  intro m hm hkey
  have hmem := (mem_scan_versionsOf hdb hb hm).1
  rw [of_decide_eq_true hkey, h] at hmem
  cases hmem

theorem agrees_iff (hdb : WellKeyed db) (hb : NulFree req.bucket) (hpre : req.pre <+: key)
    (hc : ∀ cur, req.cursor = some cur → ¬ cur.Excludes key) :
    LatestAgrees db req key ↔ versionsOf db req.bucket key = [] ∨ ¬ Blocked db req := by
  constructor
  · intro h
    by_contra hnot
    obtain ⟨hsome, hblocked⟩ := not_or.mp hnot
    obtain ⟨m, ms, hv⟩ := List.exists_cons_of_ne_nil hsome
    -- the listing has nothing, and the key has a latest version
    have hget := h.objects
    rw [ListObjectsRequest.latestByKey, scan_blocked hdb hb (not_not.mp hblocked), get_latest_eq hdb, hv,
      foldl_takeLatest_cons] at hget
    cases hget
  · rintro (h | h)
    · exact latestAgrees_of_scan hdb hb (scan_no_versions hdb hb h)
    · exact latestAgrees_of_scan hdb hb (scan_unblocked hdb hb h hpre hc)

end

/-- In every store the server reaches: for a key with the prefix that the cursor does not
    exclude, the four agree exactly if it has no version, or no row before the prefix comes
    after the cursor. -/
theorem latest_agrees_iff {env : Env} (henv : env.Sane) {c : ServerConfig}
    (h : Running env (Serves env) (fun _ _ _ => True) c) {req : ListObjectsRequest} {key : Str} (hb : NulFree req.bucket)
    (hpre : req.pre <+: key) (hc : ∀ cur, req.cursor = some cur → ¬ cur.Excludes key) :
    LatestAgrees c.world.db req key ↔ versionsOf c.world.db req.bucket key = [] ∨ ¬ Blocked c.world.db req := by
  obtain ⟨htidy, -, -⟩ := running_sound henv (fun _ hp => hp) (I := fun _ _ => True) trivial (fun _ _ _ _ => trivial)
    (fun _ _ _ _ _ _ _ => trivial) h
  exact agrees_iff htidy.wellKeyed hb hpre hc

/-- Two objects, the first before the prefix of the second. -/
def twoObjects : List Event :=
  [.request 0 (.createBucket (str "bucket") []), .steps 0 2,
    .request 0 (.putObject (str "bucket") (str "b") [] (str "a")), .steps 0 4,
    .request 0 (.putObject (str "bucket") (str "p") [] (str "a")), .steps 0 4]

theorem latest_agrees_two_objects : ∃ c, Running sampleEnv (Serves sampleEnv) (fun _ _ _ => True) c ∧
    (∃ m, handleGetLatestVersion c.world.db (str "bucket") (str "p") = some m) ∧
      LatestAgrees c.world.db ⟨str "bucket", str "p", none, none, 1000⟩ (str "p") := by
  apply running_reaches 1 twoObjects (fun _ _ _ => true)
    fun c => (handleGetLatestVersion c.world.db (str "bucket") (str "p")).isSome &&
      c.world.db.objects.rows.all fun r => decide (r.1 < initialScanStart (str "bucket") (str "p")) ||
        decide (str "p" ≤ r.2.key.key)
  · exact fun _ _ _ _ _ => trivial
  · rfl
  · rfl
  · intro c hc hq
    rw [Bool.and_eq_true, List.all_eq_true] at hq
    refine ⟨Option.isSome_iff_exists.mp hq.1, (latest_agrees_iff sampleEnv_sane hc (by decide) (List.prefix_refl _)
      (fun _ e => by cases e)).mpr (Or.inr ?_)⟩
    rintro ⟨r, hr, -, -, hstart, hlt⟩
    have := hq.2 r hr
    rw [Bool.or_eq_true, decide_eq_true_eq, decide_eq_true_eq] at this
    rcases this with h | h
    · exact absurd hstart (not_le.mpr h)
    · exact absurd hlt (not_lt.mpr h)

theorem a_key_is_hidden_by_the_cursor :
    ¬ ∀ c, Running sampleEnv (ServesOnly sampleEnv Request.writesObjects false) (fun _ _ _ => True) c →
      LatestAgrees c.world.db ⟨str "bucket", str "p", none, some (.afterKey (str "a")), 1000⟩ (str "p") := by
  apply running_refutes 1 twoObjects (fun _ _ _ => true)
    fun c => (handleGetLatestVersion c.world.db (str "bucket") (str "p")).isSome &&
      (Table.get (ListObjectsRequest.latestByKey ⟨str "bucket", str "p", none, some (.afterKey (str "a")), 1000⟩ c.world.db)
        (str "p")).isNone
  · exact fun _ _ _ _ _ => trivial
  · rfl
  · rfl
  · intro c hq h
    rw [Bool.and_eq_true] at hq
    have hobjects := h.objects
    rw [Option.isNone_iff_eq_none.mp hq.2] at hobjects
    have hsome := hq.1
    rw [← hobjects] at hsome
    cases hsome

end S3lite
