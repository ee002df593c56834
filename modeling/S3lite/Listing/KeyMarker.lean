/-
  S3lite.Listing.KeyMarker — following `list_object_versions` from key marker to key marker.

  A page may be cut between two versions of a key, and the marker is the key alone: the
  next page starts after every version of it (`versionsPage`).
  - `mem_versionRows`: from a marker, the versions of the keys past it.
  - `versionList_marker`: so the page after an entry starts where the entry's key ends.
  - `versions_walk_exact_iff`: the walk ends with every committed manifest exactly once,
    exactly if every page ends with the last version of a key (`a_version_is_skipped`).
-/
import S3lite.Listing.Marker

namespace S3lite

/-! ## The pages of versions -/

/-- The manifests on the page for a key marker, and the marker of the next one. -/
def versionsPage (db : Db) (req : ListObjectsRequest) (keyMarker : Str) : List Manifest × Option Str :=
  let page := handleListObjectVersions db { req with cursor := afterMarker keyMarker }
  (page.entries.map (·.manifest), if page.truncated then page.nextCursor.map ListCursor.text else none)

/-- What a request lists, grouped by key. -/
def versionRows (db : Db) (req : ListObjectsRequest) : List (Str × List Manifest) :=
  ((req.scan db).foldl pushVersion .empty).rows

/-- The manifests in the order of their keys, each key's newest first. -/
def versionList (db : Db) (req : ListObjectsRequest) : List Manifest := (versionRows db req).flatMap fun r => sortVersions r.2

/-- The committed manifests of the keys with the prefix. -/
def IsListedVersion (db : Db) (req : ListObjectsRequest) (m : Manifest) : Prop :=
  (∃ k, (k, m) ∈ db.objects.rows) ∧ m.state = .committed ∧ m.key.bucket = req.bucket ∧ req.pre <+: m.key.key

section
variable {db : Db} {req : ListObjectsRequest}

theorem markLatest_manifests (isLatest : Bool) (ms : List Manifest) : (markLatest isLatest ms).map (·.manifest) = ms := by
  induction ms generalizing isLatest with
  | nil => rfl
  | cons m ms ih =>
    unfold markLatest
    rw [List.map_cons, ih]

/-- A page is the first `limit` of the manifests, and its marker the key of the last. -/
theorem versionsPage_eq (db : Db) (req : ListObjectsRequest) (keyMarker : Str) :
    versionsPage db req keyMarker =
      let all := versionList db { req with cursor := afterMarker keyMarker }
      (all.take req.limit,
        if req.limit < all.length then (all.take req.limit).getLast?.map fun m => m.key.key else none) := by
  have hall : ∀ rows : List (Str × List Manifest), (allVersions rows).map (·.manifest) = rows.flatMap fun r => sortVersions r.2 := by
    intro rows
    unfold allVersions
    rw [List.map_flatMap]
    simp only [markLatest_manifests]
  obtain ⟨entries, he⟩ : ∃ entries, allVersions (versionRows db { req with cursor := afterMarker keyMarker }) = entries :=
    ⟨_, rfl⟩
  have hlist : versionList db { req with cursor := afterMarker keyMarker } = entries.map (·.manifest) := by
    rw [← he, hall]
    rfl
  have hpage : handleListObjectVersions db { req with cursor := afterMarker keyMarker } = cutVersions req.limit entries := by
    rw [handleListObjectVersions_eq, ← he]
    rfl
  unfold versionsPage
  simp only [hpage, hlist, cutVersions_entries, cutVersions_truncated, List.length_map, List.map_take, decide_eq_true_eq]
  by_cases hmore : req.limit < entries.length
  · rw [if_pos hmore, if_pos hmore]
    unfold cutVersions ListObjectVersionsPage.cut
    rw [if_neg (not_le.mpr hmore), ← List.map_take, List.getLast?_map]
    cases (entries.take req.limit).getLast? <;> rfl
  · rw [if_neg hmore, if_neg hmore]

/-! ## The answers of `list_object_versions` -/

/-- Key and version id of a manifest of a kind. -/
def ofKind (kind : ManifestKind) (m : Manifest) : Option (Str × Str) :=
  if m.kind = kind then some (m.key.key, m.key.versionId) else none

open Handler in
theorem ensures_splitVersions {env : Env} {w : World} (entries : List ListObjectVersionEntry) :
    Ensures env (splitVersions env none entries) w (fun split w' => w' = w ∧
      split.1.map (fun v => (v.key, v.versionId)) = (entries.map (·.manifest)).filterMap (ofKind .object) ∧
      split.2.map (fun d => (d.key, d.versionId)) = (entries.map (·.manifest)).filterMap (ofKind .tombstone))
      fun _ _ => True := by
  induction entries with
  | nil => exact ⟨rfl, rfl, rfl⟩
  | cons entry entries ih =>
    unfold splitVersions
    simp only
    cases hkind : entry.manifest.kind with
    | object =>
      have hin : ofKind .object entry.manifest = some (entry.manifest.key.key, entry.manifest.key.versionId) := if_pos hkind
      have hout : ofKind .tombstone entry.manifest = none := if_neg (by rw [hkind]; exact ManifestKind.noConfusion)
      unfold etagOf
      cases entry.manifest.etag env.md5 env.debug with
      | none => simp
      | some etag =>
        simp only [ensures_bind, ensures_ok]
        refine ih.mono (fun split w' h => ?_) fun _ _ h => h
        obtain ⟨hw, hversions, hmarkers⟩ := h
        rw [List.map_cons, List.map_cons, List.filterMap_cons_some hin, List.filterMap_cons_none hout, hversions]
        exact ⟨hw, rfl, hmarkers⟩
    | tombstone =>
      have hin : ofKind .tombstone entry.manifest = some (entry.manifest.key.key, entry.manifest.key.versionId) := if_pos hkind
      have hout : ofKind .object entry.manifest = none := if_neg (by rw [hkind]; exact ManifestKind.noConfusion)
      simp only [ensures_bind, ensures_ok]
      refine ih.mono (fun split w' h => ?_) fun _ _ h => h
      obtain ⟨hw, hversions, hmarkers⟩ := h
      rw [List.map_cons, List.map_cons, List.filterMap_cons_some hin, List.filterMap_cons_none hout, hmarkers]
      exact ⟨hw, hversions, rfl⟩

open Handler in
/-- An answer has the versions and delete markers of the page, and its key marker. -/
theorem ensures_listObjectVersions {env : Env} {w : World} {bucket query : Str}
    (hplain : Table.get (parseQuery query) (str "encoding-type") = none) : Ensures env (listObjectVersions env bucket query) w
      (fun r _ => ∃ q answer, VersionsQuery.parse (parseQuery query) = .ok q ∧ r = .ofXml (.listVersions answer) ∧
        let page := versionsPage w.db (q.request bucket) q.keyMarker
        answer.versions.map (fun v => (v.key, v.versionId)) = page.1.filterMap (ofKind .object) ∧
          answer.deleteMarkers.map (fun d => (d.key, d.versionId)) = page.1.filterMap (ofKind .tombstone) ∧
          answer.nextKeyMarker = page.2)
      fun _ _ => True := by
  unfold listObjectVersions requireBucket
  simp only [ensures_bind, ensures_op, ensures_orFail, ensures_ofExcept]
  refine ⟨fun _ _ => ⟨fun q hq => ?_, fun _ _ => trivial⟩, fun _ => trivial⟩
  have hencoding : q.encoding = none := by
    unfold VersionsQuery.parse at hq
    rw [hplain] at hq
    cases hmax : parseMaxKeys (Table.get (parseQuery query) (str "max-keys")) with
    | error e =>
      rw [hmax] at hq
      cases hq
    | ok maxKeys =>
      rw [hmax] at hq
      cases hq
      rfl
  rw [hencoding]
  refine (ensures_splitVersions _).mono (fun split w' h => ?_) fun _ _ h => h
  obtain ⟨-, hversions, hmarkers⟩ := h
  refine ⟨q, _, hq, rfl, hversions, hmarkers, ?_⟩
  rfl

/-! ## After a marker -/

theorem mem_versionRows (hdb : WellKeyed db) (hb : NulFree req.bucket) (c : Option ListCursor)
    (hc : ∀ k, c = some (.afterKey k) → NulFree k ∧ req.pre <+: k) (hkind : ∀ p, c ≠ some (.afterPrefix p))
    {r : Str × List Manifest} : r ∈ versionRows db { req with cursor := c } ↔
      r.2 = versionsOf db req.bucket r.1 ∧ r.2 ≠ [] ∧ req.pre <+: r.1 ∧ Past (cursorName c) r.1 := by
  obtain ⟨scan, hs⟩ : ∃ scan, ({ req with cursor := c } : ListObjectsRequest).scan db = scan := ⟨_, rfl⟩
  -- the scan makes no use of the delimiter, and without one every cursor is that of a key
  obtain ⟨plain, hplain⟩ : ∃ plain : ListObjectsRequest, plain = { req with delimiter := none, cursor := c } := ⟨_, rfl⟩
  have hscan : scan = plain.scan db := by rw [← hs, hplain]; rfl
  have hvalid : plain.Valid := ⟨hplain ▸ hb, fun d hd => by rw [hplain] at hd; cases hd⟩
  have hmeets : plain.Meets plain.cursor := by
    rw [hplain]
    show ListObjectsRequest.Meets _ c
    rcases hcur : c with _ | ⟨k⟩ | ⟨p⟩
    · exact .none
    · exact .afterKey (hc k hcur).1 (hc k hcur).2 rfl
    · exact absurd hcur (hkind p)
  have hname : ∀ key, (rollUp plain.pre plain.delimiter).name key = key := by
    intro key
    refine RollUp.name_of_none _ ?_
    rw [hplain]
    show (if req.pre <+: key then commonPrefixOf req.pre none key else none) = none
    split <;> rfl
  have hversions : ∀ key, req.pre <+: key → Past (cursorName c) key →
      scan.filter (fun m => m.key.key = key) = versionsOf db req.bucket key := by
    intro key hp hpast
    have hpast' : Past (cursorName plain.cursor) ((rollUp plain.pre plain.delimiter).name key) := by
      rw [hname, hplain]
      exact hpast
    have := scan_versions hdb hvalid hmeets (by rwa [hplain]) hpast'
    rwa [← hscan, show plain.bucket = req.bucket by rw [hplain]] at this
  have hmem : ∀ m ∈ scan, req.pre <+: m.key.key ∧ Past (cursorName c) m.key.key := by
    intro m hm
    rw [hscan, mem_scan hdb hvalid hmeets, hname] at hm
    rw [hplain] at hm
    exact hm.2
  unfold versionRows
  rw [hs]
  constructor
  · intro hr
    have hlist := mem_pushVersion_rows hr
    obtain ⟨m, hm, hkey⟩ : ∃ m ∈ scan, m.key.key = r.1 := by
      have hsome := (foldl_pushVersion_isSome scan .empty r.1).mp (by rw [Table.get_of_mem hr]; rfl)
      exact hsome.resolve_left (by rw [Table.get_empty]; exact Bool.false_ne_true)
    have hin := hmem m hm
    rw [hkey] at hin
    refine ⟨hlist.trans (hversions r.1 hin.1 hin.2), fun hnil => ?_, hin⟩
    have : m ∈ r.2 := hlist ▸ List.mem_filter.mpr ⟨hm, decide_eq_true hkey⟩
    rw [hnil] at this
    cases this
  · rintro ⟨hlist, hne, hp, hpast⟩
    have hget := foldl_pushVersion_get scan .empty r.1
    rw [hversions r.1 hp hpast, ← hlist, Table.get_empty, Option.getD_none, List.nil_append] at hget
    refine Table.mem_rows.mpr ?_
    cases hrow : (scan.foldl pushVersion .empty).get r.1 with
    | none =>
      rw [hrow] at hget
      exact absurd hget.symm hne
    | some ms =>
      rw [hrow, Option.getD_some] at hget
      rw [hget]

/-- The whole list: that of a request without a marker. -/
def fullVersionList (db : Db) (req : ListObjectsRequest) : List Manifest := versionList db { req with cursor := none }

theorem versionRows_sorted (db : Db) (req : ListObjectsRequest) :
    (versionRows db req).Pairwise fun a b => a.1 < b.1 := Table.sorted _

theorem mem_fullRows (hdb : WellKeyed db) (hb : NulFree req.bucket) {r : Str × List Manifest} :
    r ∈ versionRows db { req with cursor := none } ↔ r.2 = versionsOf db req.bucket r.1 ∧ r.2 ≠ [] ∧ req.pre <+: r.1 := by
  rw [mem_versionRows hdb hb none (fun k h => by cases h) (fun p h => by cases h)]
  refine and_congr_right fun _ => and_congr_right fun _ => and_iff_left (WithBot.bot_lt_coe _)

/-- The manifests of a row have the row's key. -/
theorem row_key (hdb : WellKeyed db) (hb : NulFree req.bucket) {r : Str × List Manifest}
    (hr : r ∈ versionRows db { req with cursor := none }) : ∀ m ∈ sortVersions r.2, m.key.key = r.1 := by
  intro m hm
  have hm := (List.perm_insertionSort _ _).mem_iff.mp hm
  rw [((mem_fullRows hdb hb).mp hr).1] at hm
  exact (mem_versionsOf.mp hm).2.2.2

theorem mem_fullVersionList (hdb : WellKeyed db) (hb : NulFree req.bucket) {m : Manifest} :
    m ∈ fullVersionList db req ↔ IsListedVersion db req m := by
  unfold fullVersionList versionList IsListedVersion
  rw [List.mem_flatMap]
  constructor
  · rintro ⟨r, hr, hm⟩
    obtain ⟨hlist, -, hp⟩ := (mem_fullRows hdb hb).mp hr
    have hkey := row_key hdb hb hr m hm
    have hm := (List.perm_insertionSort _ _).mem_iff.mp hm
    rw [hlist] at hm
    obtain ⟨hrow, hs, hbucket, -⟩ := mem_versionsOf.mp hm
    exact ⟨hrow, hs, hbucket, hkey ▸ hp⟩
  · rintro ⟨hrow, hs, hbucket, hp⟩
    have hm : m ∈ versionsOf db req.bucket m.key.key := mem_versionsOf.mpr ⟨hrow, hs, hbucket, rfl⟩
    refine ⟨(m.key.key, versionsOf db req.bucket m.key.key), (mem_fullRows hdb hb).mpr ⟨rfl, List.ne_nil_of_mem hm, hp⟩, ?_⟩
    exact (List.perm_insertionSort _ _).mem_iff.mpr hm

theorem fullVersionList_nodup (hdb : WellKeyed db) (hb : NulFree req.bucket) : (fullVersionList db req).Nodup := by
  unfold fullVersionList versionList
  refine List.nodup_flatMap.mpr ⟨fun r hr => ?_, ?_⟩
  · have hperm : (sortVersions r.2).Perm r.2 := List.perm_insertionSort _ _
    rw [hperm.nodup_iff, ((mem_fullRows hdb hb).mp hr).1]
    exact versionsOf_nodup hdb _ _
  · refine (versionRows_sorted _ _).imp_of_mem ?_
    intro a b ha hb' hab m hma hmb
    rw [← row_key hdb hb ha m hma, row_key hdb hb hb' m hmb] at hab
    exact lt_irrefl _ hab

/-- The keys come in ascending order, each with all its versions. -/
theorem fullVersionList_ascending (hdb : WellKeyed db) (hb : NulFree req.bucket) :
    (fullVersionList db req).Pairwise fun a b => a.key.key ≤ b.key.key := by
  unfold fullVersionList versionList
  refine List.pairwise_flatMap.mpr ⟨fun r hr => ?_, ?_⟩
  · refine List.pairwise_of_forall_mem_list fun a ha b hb' => ?_
    rw [row_key hdb hb hr a ha, row_key hdb hb hr b hb']
  · refine (versionRows_sorted _ _).imp_of_mem ?_
    intro r r' hr hr' hlt a ha b hb'
    rw [row_key hdb hb hr a ha, row_key hdb hb hr' b hb']
    exact hlt.le

/-- After a key come the manifests of the greater keys. -/
theorem versionList_marker (hdb : WellKeyed db) (hb : NulFree req.bucket) {k : Str} (hk : NulFree k) (hp : req.pre <+: k) :
    versionList db { req with cursor := some (.afterKey k) } = (fullVersionList db req).filter fun m => k < m.key.key := by
  have hrows : versionRows db { req with cursor := some (.afterKey k) } =
      (versionRows db { req with cursor := none }).filter fun r => k < r.1 := by
    refine eq_of_ascending (f := Prod.fst) (List.pairwise_map.mpr (versionRows_sorted _ _))
      (List.pairwise_map.mpr ((versionRows_sorted _ _).filter _)) fun r => ?_
    rw [List.mem_filter, mem_fullRows hdb hb, mem_versionRows hdb hb (some (.afterKey k)) (fun k' h => by cases h; exact ⟨hk, hp⟩) (fun p h => by cases h),
      decide_eq_true_eq, show Past (cursorName (some (ListCursor.afterKey k))) r.1 ↔ k < r.1 from WithBot.coe_lt_coe]
    tauto
  unfold fullVersionList versionList
  rw [hrows, List.filter_flatMap]
  generalize hall : versionRows db { req with cursor := none } = rows
  have hkeys : ∀ r ∈ rows, ∀ m ∈ sortVersions r.2, m.key.key = r.1 := fun r hr => row_key hdb hb (hall ▸ hr)
  clear hall hrows
  induction rows with
  | nil => rfl
  | cons r rows ih =>
    have hr := hkeys r (List.mem_cons_self ..)
    rw [List.flatMap_cons, List.filter_cons, ← ih fun x hx => hkeys x (List.mem_cons_of_mem _ hx)]
    by_cases hlt : k < r.1
    · have hall : (sortVersions r.2).filter (fun m => k < m.key.key) = sortVersions r.2 :=
        List.filter_eq_self.mpr fun m hm => by simpa [hr m hm] using hlt
      rw [if_pos (by simpa using hlt), List.flatMap_cons, hall]
    · have hnone : (sortVersions r.2).filter (fun m => k < m.key.key) = [] :=
        List.filter_eq_nil_iff.mpr fun m hm => by simpa [hr m hm] using hlt
      rw [if_neg (by simpa using hlt), hnone, List.nil_append]

/-! ## The walk -/

/-- Where the page after a manifest starts: past its key, or, the empty key being no
    marker, at the start. -/
def versionResumeAt (db : Db) (req : ListObjectsRequest) (j : Nat) : Nat :=
  match (fullVersionList db req)[j]? with
  | none => j
  | some m => if m.key.key = [] then 0 else (fullVersionList db req).countP fun x => x.key.key ≤ m.key.key

theorem versionResumeAt_eq {j : Nat} (hj : j < (fullVersionList db req).length) : versionResumeAt db req j =
    if (fullVersionList db req)[j].key.key = [] then 0
    else (fullVersionList db req).countP fun x => x.key.key ≤ (fullVersionList db req)[j].key.key := by
  unfold versionResumeAt
  rw [List.getElem?_eq_getElem hj]

theorem versions_stretches (hdb : WellKeyed db) (hb : NulFree req.bucket) (hlimit : 0 < req.limit) :
    Stretches (versionsPage db req) (fullVersionList db req) req.limit (versionResumeAt db req)
      fun keyMarker k => versionList db { req with cursor := afterMarker keyMarker } = (fullVersionList db req).drop k where
  items := by
    intro keyMarker k h
    rw [versionsPage_eq]
    simp only [h]
  last := by
    intro keyMarker k h hle
    rw [versionsPage_eq]
    simp only [h, List.length_drop]
    exact if_neg (by omega)
  next := by
    intro keyMarker k h hlt
    have hj : k + req.limit - 1 < (fullVersionList db req).length := by omega
    refine ⟨(fullVersionList db req)[k + req.limit - 1].key.key, ?_, ?_⟩
    · have hlen : (((fullVersionList db req).drop k).take req.limit).length = req.limit := by
        rw [List.length_take, List.length_drop]
        omega
      rw [versionsPage_eq]
      simp only [h]
      rw [if_pos (by rw [List.length_drop]; omega), List.getLast?_eq_getElem?, hlen, List.getElem?_take_of_lt (by omega),
        List.getElem?_drop, show k + (req.limit - 1) = k + req.limit - 1 by omega, List.getElem?_eq_getElem hj]
      rfl
    · obtain ⟨m, hm⟩ : ∃ m, (fullVersionList db req)[k + req.limit - 1] = m := ⟨_, rfl⟩
      obtain ⟨⟨row, hrow⟩, -, -, hp⟩ := (mem_fullVersionList hdb hb).mp (hm ▸ List.getElem_mem hj)
      have hn : NulFree m.key.key := (hdb _ hrow).2.key
      rw [versionResumeAt_eq hj, hm]
      unfold afterMarker
      by_cases hkey : m.key.key = []
      · rw [if_pos (by rw [hkey]; rfl), if_pos hkey]
        rfl
      · rw [if_neg (by simpa using hkey), if_neg hkey, versionList_marker hdb hb hn hp,
          (countP_split_ascending (fullVersionList_ascending hdb hb) m.key.key).2]
        exact List.filter_congr fun x _ => decide_eq_decide.mpr Iff.rfl
  forth := by
    intro j
    by_cases hj : j < (fullVersionList db req).length
    · rw [versionResumeAt_eq hj]
      split
      · exact Or.inr rfl
      · exact Or.inl (Nat.le_of_succ_le (countP_ascending (fullVersionList_ascending hdb hb) hj).1)
    · unfold versionResumeAt
      rw [List.getElem?_eq_none (not_lt.mp hj)]
      exact Or.inl le_rfl
  limit_pos := hlimit

/-- On an unchanged store the walk over the key markers ends and lists every committed
    manifest of every key with the prefix exactly once, exactly if every page that is cut
    ends with the last version of a key, and that key is not empty. -/
theorem versions_walk_exact_iff (hdb : WellKeyed db) (hb : NulFree req.bucket) (hlimit : 0 < req.limit) :
    (∃ manifests, Follows (versionsPage db req) [] manifests ∧ manifests.Nodup ∧ ∀ m, m ∈ manifests ↔ IsListedVersion db req m) ↔
      ∀ i, 1 ≤ i → i * req.limit < (fullVersionList db req).length →
        ∀ m m', (fullVersionList db req)[i * req.limit - 1]? = some m → (fullVersionList db req)[i * req.limit]? = some m' →
          m.key.key ≠ [] ∧ m'.key.key ≠ m.key.key := by
  have hexact := (versions_stretches hdb hb hlimit).exact_iff (fullVersionList_nodup hdb hb) (m := []) rfl
  simp only [mem_fullVersionList hdb hb] at hexact
  rw [hexact]
  refine forall_congr' fun i => forall_congr' fun hi => forall_congr' fun hlt => ?_
  have hpos := Nat.mul_pos hi hlimit
  have hj : i * req.limit - 1 < (fullVersionList db req).length := by omega
  have hnext := (countP_ascending (fullVersionList_ascending hdb hb) hj).2
  rw [Nat.sub_add_cancel hpos] at hnext
  rw [versionResumeAt_eq hj, List.getElem?_eq_getElem hj]
  by_cases hkey : (fullVersionList db req)[i * req.limit - 1].key.key = []
  · rw [if_pos hkey]
    refine iff_of_false (by omega) fun h => ?_
    exact (h _ _ rfl (List.getElem?_eq_getElem hlt)).1 hkey
  · rw [if_neg hkey, hnext]
    constructor
    · intro h m m' hm hm'
      cases hm
      exact ⟨hkey, h m' hm'⟩
    · intro h m' hm'
      exact (h _ m' rfl hm').2

end

/-- One key of bucket `b` with two versions. -/
def twoVersions : Db := dbOf [bare ⟨[98], [107], [118]⟩ .committed [], bare ⟨[98], [107], [119]⟩ .committed []]

theorem versions_walk_two_keys : ∃ manifests, Follows (versionsPage twoKeys ⟨[98], [], none, none, 1⟩) [] manifests ∧
    manifests.Nodup ∧ ∀ m, m ∈ manifests ↔ IsListedVersion twoKeys ⟨[98], [], none, none, 1⟩ m := by
  refine (versions_walk_exact_iff twoKeys_wellKeyed (by decide) Nat.one_pos).mpr ?_
  intro i hi hlt m m' hm hm'
  have hkeys : (fullVersionList twoKeys ⟨[98], [], none, none, 1⟩).map (fun m => m.key.key) = [[100, 47, 120], [107]] := by
    rfl
  have hlen := congrArg List.length hkeys
  rw [List.length_map] at hlen
  obtain rfl : i = 1 := by
    simp only [Nat.mul_one, List.length_cons, List.length_nil] at hlt hlen
    omega
  have h1 := congrArg (fun l => l[0]?) hkeys
  have h2 := congrArg (fun l => l[1]?) hkeys
  simp only [List.getElem?_map, Nat.mul_one, Nat.sub_self] at h1 h2 hm hm'
  rw [hm] at h1
  rw [hm'] at h2
  simp only [Option.map_some, List.getElem?_cons_zero, List.getElem?_cons_succ, Option.some.injEq] at h1 h2
  rw [h1, h2]
  exact ⟨by decide, by decide⟩

/-- Pages of one: the second version is never listed. -/
theorem a_version_is_skipped : ¬ ∃ manifests, Follows (versionsPage twoVersions ⟨[98], [], none, none, 1⟩) [] manifests ∧
    manifests.Nodup ∧ ∀ m, m ∈ manifests ↔ IsListedVersion twoVersions ⟨[98], [], none, none, 1⟩ m := by
  rintro ⟨manifests, hf, -, hall⟩
  have hstart : ((versionsPage twoVersions ⟨[98], [], none, none, 1⟩ []).1.length,
      (versionsPage twoVersions ⟨[98], [], none, none, 1⟩ []).2) = (1, some [107]) := by rfl
  have hsecond : ((versionsPage twoVersions ⟨[98], [], none, none, 1⟩ [107]).1.length,
      (versionsPage twoVersions ⟨[98], [], none, none, 1⟩ [107]).2) = (0, none) := by rfl
  obtain ⟨hlen1, hnext1⟩ := Prod.mk.inj hstart
  obtain ⟨hlen2, hnext2⟩ := Prod.mk.inj hsecond
  have hlen : manifests.length = 1 := by
    cases hf with
    | last h =>
      rw [h] at hnext1
      cases hnext1
    | next h hf =>
      rw [hnext1] at h
      cases h
      cases hf with
      | last _ => rw [List.length_append, hlen1, hlen2]
      | next h _ =>
        rw [hnext2] at h
        cases h
  obtain ⟨m, rfl⟩ := List.length_eq_one_iff.mp hlen
  have hlisted : ∀ v, twoVersions.objects.get (ManifestKey.mk [98] [107] v).encode = some (bare ⟨[98], [107], v⟩ .committed []) →
      bare ⟨[98], [107], v⟩ .committed [] = m := fun v hv =>
    List.mem_singleton.mp ((hall _).mpr ⟨⟨_, Table.mem_rows.mpr hv⟩, rfl, rfl, List.nil_prefix⟩)
  have h := (hlisted [118] ((Table.get_insert_ne _ _ (by decide)).trans (Table.get_insert_self ..))).trans
    (hlisted [119] (Table.get_insert_self ..)).symm
  exact absurd (congrArg (fun m => m.key.versionId) h) (by decide)

end S3lite
