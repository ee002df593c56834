/-
  S3lite.Listing.Marker — following `list_v1` from marker to marker.

  V1 hands on a string where the store hands on a cursor, and takes it for a key again
  (`v1Page`). After an object that is the same position. After a common prefix it lies
  before the keys that start with the prefix, and the prefix is listed again.
  - `remaining_afterKey`: what the store lists after a string that may be a common prefix.
  - `remaining_marker`: so the page after an item that stalls (`Stalls`) starts with it.
  - `v1_walk_exact_iff`: the walk ends with the reference listing, each item once, as the
    walk of V2 does, exactly if no page ends on an item that stalls (`a_marker_stalls`).
-/
import S3lite.Listing.Latest
import S3lite.Listing.Walk
import S3lite.Server.Alone

namespace S3lite

/-! ## The pages of V1 -/

def ListItem.objectKey : ListItem → Option Str
  | .object m => some m.key.key
  | .commonPrefix _ => none

/-- The page for a marker, and the marker of the next one: `next_marker` if there is one,
    otherwise the last key. -/
def v1Page (db : Db) (req : ListObjectsRequest) (marker : Str) : List ListItem × Option Str :=
  let page := handleListObjects db { req with cursor := afterMarker marker }
  let nextMarker := if page.truncated && req.delimiter.isSome then page.nextCursor.map ListCursor.text else none
  (page.items, if page.truncated then nextMarker.or (page.items.filterMap ListItem.objectKey).getLast? else none)

/-! ## The answers of `list_v1` -/

def ListItem.rolledUp : ListItem → Option Str
  | .object _ => none
  | .commonPrefix p => some p

/-- What the client passes on. -/
def ListBucketResultV1.passedOn (answer : ListBucketResultV1) : Option Str :=
  if answer.isTruncated then answer.nextMarker.or (answer.contents.map (·.key)).getLast? else none

open Handler in
theorem ensures_splitItems {env : Env} {w : World} (items : List ListItem) :
    Ensures env (splitItems env none items) w (fun split w' => w' = w ∧
      split.1.map (·.key) = items.filterMap ListItem.objectKey ∧ split.2 = items.filterMap ListItem.rolledUp)
      fun _ _ => True := by
  induction items with
  | nil => exact ⟨rfl, rfl, rfl⟩
  | cons item items ih =>
    cases item with
    | object m =>
      unfold splitItems etagOf
      cases m.etag env.md5 env.debug with
      | none => simp
      | some etag =>
        simp only [ensures_bind, ensures_ok]
        refine ih.mono (fun split w' h => ?_) fun _ _ h => h
        obtain ⟨hw, hkeys, hprefixes⟩ := h
        refine ⟨hw, ?_, hprefixes⟩
        rw [List.map_cons, hkeys]
        rfl
    | commonPrefix p =>
      unfold splitItems
      simp only [ensures_bind, ensures_ok]
      refine ih.mono (fun split w' h => ?_) fun _ _ h => h
      obtain ⟨hw, hkeys, hprefixes⟩ := h
      refine ⟨hw, hkeys, ?_⟩
      rw [hprefixes]
      rfl

open Handler in
/-- An answer has the keys and common prefixes of the page, and passes its marker on. -/
theorem ensures_listV1 {env : Env} {w : World} {bucket : Str} {params : Params}
    (hplain : Table.get params (str "encoding-type") = none) : Ensures env (listV1 env bucket params) w
      (fun r _ => ∃ maxKeys answer, parseMaxKeys (Table.get params (str "max-keys")) = .ok maxKeys ∧
        r = .ofXml (.listBucketV1 answer) ∧
        (answer.contents.map (·.key), answer.commonPrefixes, answer.passedOn) =
          let page := v1Page w.db ⟨bucket, params.getString (str "prefix"), params.delimiter, none, maxKeys⟩
            (params.getString (str "marker"))
          (page.1.filterMap ListItem.objectKey, page.1.filterMap ListItem.rolledUp, page.2))
      fun _ _ => True := by
  unfold listV1
  simp only [ensures_bind, ensures_ofExcept, hplain, parseEncoding]
  refine ⟨fun maxKeys hmax => ⟨fun encoding he => ?_, fun _ _ => trivial⟩, fun _ _ => trivial⟩
  cases he
  rw [ensures_op]
  refine (ensures_splitItems _).mono (fun split w' h => ?_) fun _ _ h => h
  obtain ⟨-, hkeys, hprefixes⟩ := h
  refine ⟨maxKeys, _, hmax, rfl, ?_⟩
  unfold ListBucketResultV1.passedOn v1Page
  simp only [hkeys, hprefixes]
  rfl

/-! ## Stalling -/

/-- The reference listing, in the order of the names. -/
def referenceListing (db : Db) (req : ListObjectsRequest) : List ListItem := remaining db { req with cursor := none }

/-- The item's name, as a marker, does not lead past the item. -/
def Stalls (db : Db) (req : ListObjectsRequest) : ListItem → Prop
  | .object m => m.key.key = []
  | .commonPrefix p => ∃ key m, IsCurrent db req.bucket key m ∧ p <+: key ∧ key ≠ p

section
variable {db : Db} {req : ListObjectsRequest}

/-! ## After a marker -/

/-- From a key on, the scan finds the latest version of every key with the prefix. -/
theorem latestByKey_afterKey (hdb : WellKeyed db) (hb : NulFree req.bucket) {k : Str} (hk : NulFree k) (hpre : req.pre ≤ k)
    (hcur : req.cursor = some (.afterKey k)) {key : Str} {m : Manifest} : (req.latestByKey db).get key = some m ↔
      handleGetLatestVersion db req.bucket key = some m ∧ req.pre <+: key ∧ k < key := by
  have hscan : ∀ r ∈ db.objects.rows, r.2.key.bucket = req.bucket → req.scanStart ≤ r.1 → k < r.2.key.key := by
    intro r hr hbucket hstart
    obtain ⟨hrow, hn⟩ := hdb r hr
    rw [scanStart_eq, hrow, ManifestKey.encode, hbucket, show req.position = k ++ [1] by
      unfold ListObjectsRequest.position; rw [hcur], ← not_lt, Word.word_lt_word_iff hb hb] at hstart
    exact (Word.next_le_word_iff zero_lt_iff_one_le hn.key hk).mp (not_lt.mp fun h => hstart (Or.inr ⟨rfl, h⟩))
  have hfree : ¬ Blocked db req := by
    rintro ⟨r, hr, -, hbucket, hstart, hlt⟩
    exact absurd (hpre.trans (hscan r hr hbucket hstart).le) (not_le.mpr hlt)
  have hlatest : ∀ {key : Str}, req.pre <+: key → k < key →
      (req.latestByKey db).get key = handleGetLatestVersion db req.bucket key := by
    intro key hp hlt
    have hc : ∀ cur, req.cursor = some cur → ¬ cur.Excludes key := by
      intro cur he
      rw [hcur] at he
      cases he
      exact not_le.mpr hlt
    unfold ListObjectsRequest.latestByKey
    rw [foldl_noteLatest_get, Table.get_empty, scan_unblocked hdb hb hfree hp hc, get_latest_eq hdb]
  constructor
  · intro h
    have hrows := latestByKey_rows hdb hb
    have hmem := Table.mem_rows.mpr h
    have hp := hrows.pre _ hmem
    -- the manifest was scanned, so its row lies past the key
    have hin : m ∈ (req.scan db).filter fun m => m.key.key = key := by
      unfold ListObjectsRequest.latestByKey at h
      rw [foldl_noteLatest_get, Table.get_empty] at h
      rcases foldl_takeLatest_mem h with h | h
      · exact h
      · cases h
    obtain ⟨hm, hkey⟩ := List.mem_filter.mp hin
    obtain ⟨⟨r, hr, rfl, hstart⟩, -, hbucket, -⟩ := mem_scan_row hdb hb hm
    have hlt := hscan r hr hbucket hstart
    rw [of_decide_eq_true hkey] at hlt
    exact ⟨(hlatest hp hlt).symm.trans h, hp, hlt⟩
  · rintro ⟨h, hp, hlt⟩
    rw [hlatest hp hlt, h]

/-- From a key on, the listing has the item of every current object with the prefix past it. -/
theorem mem_remaining_afterKey (hdb : WellKeyed db) (hb : NulFree req.bucket) {k : Str} (hk : NulFree k) (hpre : req.pre ≤ k)
    (hcur : req.cursor = some (.afterKey k)) {item : ListItem} : item ∈ remaining db req ↔
      ∃ key m, IsCurrent db req.bucket key m ∧ req.pre <+: key ∧ k < key ∧ item = rollItem req (key, m) := by
  have hrows : LoopRows req (req.latestByKey db).rows := latestByKey_rows hdb hb
  have hget : ∀ key m, (req.latestByKey db).get key = some m ↔
      handleGetLatestVersion db req.bucket key = some m ∧ req.pre <+: key ∧ k < key :=
    fun _ _ => latestByKey_afterKey hdb hb hk hpre hcur
  unfold ListObjectsRequest.latestByKey at hrows hget
  rw [remaining, rollAll_mem hrows skipBelow_none]
  constructor
  · rintro ⟨⟨key, m⟩, hr, hobj, -, rfl⟩
    obtain ⟨hlatest, hp, hlt⟩ := (hget key m).mp (Table.get_of_mem hr)
    exact ⟨key, m, ⟨hlatest, hobj⟩, hp, hlt, rfl⟩
  · rintro ⟨key, m, ⟨hlatest, hobj⟩, hp, hlt, rfl⟩
    exact ⟨(key, m), Table.mem_rows.mpr ((hget key m).mpr ⟨hlatest, hp, hlt⟩), hobj, (fun _ h => by cases h), rfl⟩

theorem rollItem_inListing (hdb : WellKeyed db) {key : Str} {m : Manifest} (hcur : IsCurrent db req.bucket key m)
    (hp : req.pre <+: key) : InListing db req (rollItem req (key, m)) ∧
      (rollItem req (key, m)).name = (rollUp req.pre req.delimiter).name key := by
  obtain ⟨hown, -⟩ := hcur.key_eq hdb
  refine ⟨?_, rollItem_name hown hp⟩
  unfold rollItem
  cases hcp : commonPrefixOf req.pre req.delimiter key with
  | none =>
    subst hown
    exact .object hcur hp hcp
  | some p => exact .commonPrefix hcur hp hcp

/-- After a common prefix as a marker come the items past it, and itself again if a current
    object starts with it and is longer. -/
theorem mem_remaining_prefix (hdb : WellKeyed db) (hreq : req.Valid) {p : Str} (hin : InListing db req (.commonPrefix p))
    (hcur : req.cursor = some (.afterKey p)) {item : ListItem} : item ∈ remaining db req ↔
      InListing db req item ∧ (p < item.name ∨ p = item.name ∧ Stalls db req (.commonPrefix p)) := by
  obtain ⟨k0, hk0, hp0, hcp0, hn0⟩ : ∃ k0, (∃ m, IsCurrent db req.bucket k0 m) ∧ req.pre <+: k0 ∧
      commonPrefixOf req.pre req.delimiter k0 = some p ∧ NulFree k0 := by
    cases hin with
    | commonPrefix h1 h2 h3 => exact ⟨_, ⟨_, h1⟩, h2, h3, (h1.key_eq hdb).2⟩
  have hb0 : (rollUp req.pre req.delimiter).block k0 = some p := by rw [rollUp_block _ hp0, hcp0]
  have hn : NulFree p := Word.Clear.of_prefix hn0 ((rollUp req.pre req.delimiter).block_pre k0 p hb0)
  obtain ⟨q, c, hqc, -, hq⟩ := commonPrefix_last hreq hp0 hcp0
  have hpre : req.pre <+: p := hq.trans (hqc ▸ List.prefix_append q [c])
  rw [mem_remaining_afterKey hdb hreq.bucket hn (Word.le_of_prefix hpre) hcur]
  constructor
  · rintro ⟨key, m, hk, hp, hlt, rfl⟩
    obtain ⟨hlisted, hname⟩ := rollItem_inListing hdb hk hp
    refine ⟨hlisted, ?_⟩
    rw [hname]
    by_cases hext : p <+: key
    · have hb := (rollUp req.pre req.delimiter).block_stable k0 p hb0 key hext
      refine Or.inr ⟨(RollUp.name_of_block _ hb).symm, key, m, hk, hext, fun e => ?_⟩
      exact absurd hlt (by rw [e]; exact lt_irrefl _)
    · refine Or.inl ?_
      have hpast := ((rollUp req.pre req.delimiter).past_name_iff_of_block hb0).mpr ⟨hlt, hext⟩
      rwa [(rollUp req.pre req.delimiter).name_of_block hb0] at hpast
  · rintro ⟨hlisted, hlt | ⟨hname, key, m, hk, hext, hne⟩⟩
    · obtain ⟨r, hr, hrname, hk, hp⟩ := inListing_row hdb hlisted
      obtain ⟨hlisted', hname'⟩ := rollItem_inListing hdb hk hp
      refine ⟨r.2.key.key, r.2, hk, hp, ?_, inListing_inj hlisted hlisted' (hname'.trans hrname).symm⟩
      rw [← hrname] at hlt
      exact lt_of_lt_of_le hlt ((rollUp req.pre req.delimiter).name_le _)
    · have hp : req.pre <+: key := hpre.trans hext
      obtain ⟨hlisted', hname'⟩ := rollItem_inListing hdb hk hp
      have hb := (rollUp req.pre req.delimiter).block_stable k0 p hb0 key hext
      refine ⟨key, m, hk, hp, lt_of_le_of_ne (Word.le_of_prefix hext) (Ne.symm hne), inListing_inj hlisted hlisted' ?_⟩
      rw [hname', RollUp.name_of_block _ hb, hname]

/-! ## The listing in order -/

theorem referenceListing_ascending (hdb : WellKeyed db) (hreq : req.Valid) :
    ((referenceListing db req).map ListItem.name).Pairwise (· < ·) :=
  remaining_ascending hdb (valid_cursor hreq none) .none

theorem mem_referenceListing (hdb : WellKeyed db) (hreq : req.Valid) {item : ListItem} :
    item ∈ referenceListing db req ↔ InListing db req item := by
  rw [referenceListing, mem_remaining hdb (valid_cursor hreq none) .none, inListing_cursor]
  exact and_iff_left (WithBot.bot_lt_coe _)

theorem names_ascending (hdb : WellKeyed db) (hb : NulFree req.bucket) :
    ((remaining db req).map ListItem.name).Pairwise (· < ·) :=
  rollAll_ascending (latestByKey_rows hdb hb) skipBelow_none

/-- After the marker of an item come the items past it, and itself again if it stalls. -/
theorem mem_remaining_marker (hdb : WellKeyed db) (hreq : req.Valid) {x : ListItem} (hx : InListing db req x)
    {item : ListItem} : item ∈ remaining db { req with cursor := afterMarker x.name } ↔
      InListing db req item ∧ (x.name < item.name ∨ x.name = item.name ∧ Stalls db req x) := by
  cases x with
  | object m =>
    have hname : (ListItem.object m).name = m.key.key := rfl
    by_cases hkey : m.key.key = []
    · -- the empty key comes first, and as a marker it is none
      have hcursor : afterMarker (ListItem.object m).name = none := by rw [hname, hkey]; rfl
      have hfirst : (ListItem.object m).name < item.name ∨ (ListItem.object m).name = item.name ∧ Stalls db req (.object m) := by
        rw [and_iff_left (show Stalls db req (.object m) from hkey), ← le_iff_lt_or_eq, hname, hkey]
        exact Word.le_of_prefix List.nil_prefix
      rw [hcursor, and_iff_left hfirst]
      exact mem_referenceListing hdb hreq
    · have hcursor : afterMarker (ListItem.object m).name = some (.afterKey m.key.key) := by
        unfold afterMarker ListItem.name
        rw [if_neg (by simpa using hkey)]
      have hmeets : ({ req with cursor := some (.afterKey m.key.key) } : ListObjectsRequest).Meets (some (.afterKey m.key.key)) :=
        meets_cursor.mpr (item_cursor hdb hx).1
      have hs : ¬ Stalls db req (.object m) := hkey
      rw [hcursor, mem_remaining hdb (valid_cursor hreq _) hmeets, inListing_cursor]
      refine and_congr_right fun _ => ?_
      rw [or_iff_left (fun h => hs h.2)]
      exact WithBot.coe_lt_coe
  | commonPrefix p =>
    have hp : p ≠ [] := by
      cases hx with
      | commonPrefix h1 h2 h3 =>
        obtain ⟨q, c, rfl, -⟩ := commonPrefix_last hreq h2 h3
        exact List.append_ne_nil_of_right_ne_nil q (List.cons_ne_nil c [])
    have hcursor : afterMarker (ListItem.commonPrefix p).name = some (.afterKey p) := by
      exact if_neg (by simpa [ListItem.name] using hp)
    rw [hcursor, mem_remaining_prefix hdb (valid_cursor hreq _) ((inListing_cursor _).mpr hx) rfl, inListing_cursor]
    exact Iff.rfl

open Classical in
/-- Where the page after an item starts, given the item as a marker. -/
noncomputable def resumeAt (db : Db) (req : ListObjectsRequest) (j : Nat) : Nat :=
  if ∃ item, (referenceListing db req)[j]? = some item ∧ Stalls db req item then j else j + 1

theorem remaining_marker (hdb : WellKeyed db) (hreq : req.Valid) {j : Nat} (hj : j < (referenceListing db req).length) :
    remaining db { req with cursor := afterMarker (referenceListing db req)[j].name } =
      (referenceListing db req).drop (resumeAt db req j) := by
  have hasc := referenceListing_ascending hdb hreq
  have hx : InListing db req (referenceListing db req)[j] := (mem_referenceListing hdb hreq).mp (List.getElem_mem hj)
  have hdrop : (((referenceListing db req).drop (resumeAt db req j)).map ListItem.name).Pairwise (· < ·) := by
    rw [List.map_drop]
    exact hasc.sublist (List.drop_sublist _ _)
  refine eq_of_ascending (names_ascending hdb hreq.bucket) hdrop fun item => ?_
  obtain ⟨hge, hgt⟩ := mem_drop_ascending hasc hj (a := item)
  rw [mem_referenceListing hdb hreq] at hge hgt
  rw [mem_remaining_marker hdb hreq hx]
  unfold resumeAt
  rw [List.getElem?_eq_getElem hj]
  by_cases hs : Stalls db req (referenceListing db req)[j]
  · rw [if_pos ⟨_, rfl, hs⟩, hge, and_iff_left hs, ← le_iff_lt_or_eq]
  · rw [if_neg (by rintro ⟨_, e, h⟩; cases e; exact hs h), hgt, or_iff_left fun h => hs h.2]

/-! ## The walk -/

/-- The marker of a truncated page is the name of its last item. -/
theorem v1Page_marker (hdb : WellKeyed db) (hb : NulFree req.bucket) {marker : Str} {last : ListItem}
    (hcut : (handleListObjects db { req with cursor := afterMarker marker }).truncated = true)
    (hlast : (handleListObjects db { req with cursor := afterMarker marker }).items.getLast? = some last) :
    (v1Page db req marker).2 = some last.name := by
  unfold v1Page
  simp only [hcut, if_true, Bool.true_and]
  have hnext : (handleListObjects db { req with cursor := afterMarker marker }).nextCursor = some last.cursor := by
    rw [handleListObjects_eq] at hcut hlast ⊢
    rw [cutPage_next hcut, hlast, Option.map_some]
  by_cases hd : req.delimiter.isSome
  · rw [if_pos hd, hnext]
    cases last <;> rfl
  · -- without a delimiter every item is an object
    have hobject : ∀ item ∈ (handleListObjects db { req with cursor := afterMarker marker }).items,
        item.objectKey = some item.name := by
      intro item hitem
      rw [handleListObjects_eq, cutPage_items] at hitem
      have hrows : LoopRows { req with cursor := afterMarker marker }
          (({ req with cursor := afterMarker marker } : ListObjectsRequest).latestByKey db).rows := latestByKey_rows hdb hb
      obtain ⟨r, -, -, -, rfl⟩ := (rollAll_mem hrows skipBelow_none).mp (List.mem_of_mem_take hitem)
      unfold rollItem commonPrefixOf
      simp only [Option.not_isSome_iff_eq_none.mp hd, Option.bind_none]
      rfl
    obtain ⟨init, hinit⟩ := List.getLast?_eq_some_iff.mp hlast
    have hname := hobject last (hinit ▸ List.mem_append_right _ (List.mem_singleton_self _))
    rw [if_neg hd, Option.none_or, hinit, List.filterMap_append, List.filterMap_cons_some hname, List.filterMap_nil,
      List.getLast?_concat]

theorem page_items (c : Option ListCursor) :
    (handleListObjects db { req with cursor := c }).items = (remaining db { req with cursor := c }).take req.limit := by
  rw [handleListObjects_eq, cutPage_items]

theorem page_truncated (c : Option ListCursor) : (handleListObjects db { req with cursor := c }).truncated =
    decide (req.limit < (remaining db { req with cursor := c }).length) := by
  rw [handleListObjects_eq, cutPage_truncated]

theorem v1_stretches (hdb : WellKeyed db) (hreq : req.Valid) (hlimit : 0 < req.limit) :
    Stretches (v1Page db req) (referenceListing db req) req.limit (resumeAt db req)
      fun marker k => remaining db { req with cursor := afterMarker marker } = (referenceListing db req).drop k where
  items := by
    intro marker k h
    show (handleListObjects db { req with cursor := afterMarker marker }).items = _
    rw [page_items, h]
  last := by
    intro marker k h hle
    have hfull : (handleListObjects db { req with cursor := afterMarker marker }).truncated = false := by
      rw [page_truncated, h, List.length_drop, decide_eq_false_iff_not]
      omega
    unfold v1Page
    simp only [hfull, Bool.false_eq_true, if_false]
  next := by
    intro marker k h hlt
    have hj : k + req.limit - 1 < (referenceListing db req).length := by omega
    refine ⟨(referenceListing db req)[k + req.limit - 1].name, v1Page_marker hdb hreq.bucket ?_ ?_, remaining_marker hdb hreq hj⟩
    · rw [page_truncated, h, List.length_drop, decide_eq_true_eq]
      omega
    · have hlen : (((referenceListing db req).drop k).take req.limit).length = req.limit := by
        rw [List.length_take, List.length_drop]
        omega
      rw [page_items, h, List.getLast?_eq_getElem?, hlen, List.getElem?_take_of_lt (by omega), List.getElem?_drop,
        show k + (req.limit - 1) = k + req.limit - 1 by omega, List.getElem?_eq_getElem hj]
  forth := by
    intro j
    unfold resumeAt
    split <;> exact Or.inl (by omega)
  limit_pos := hlimit

/-- What the walk of V2 lists is the reference listing, in order. -/
theorem listed_v2 (hdb : WellKeyed db) (hreq : req.Valid) (hlimit : 0 < req.limit) :
    listed (listPages req none (List.replicate (db.objects.rows.length + 1) db)) = referenceListing db req := by
  have hsame : ∀ d ∈ List.replicate (db.objects.rows.length + 1) db, d = db := fun d hd => List.eq_of_mem_replicate hd
  have hkeyed : ∀ d ∈ List.replicate (db.objects.rows.length + 1) db, WellKeyed d := fun d hd => hsame d hd ▸ hdb
  obtain ⟨hends, hall⟩ := listed_unchanged hreq hlimit hkeyed hsame
  refine eq_of_ascending (listed_ascending hreq hlimit hkeyed) (referenceListing_ascending hdb hreq) fun item => ?_
  rw [hall (hends (by rw [List.length_replicate]; omega)) item, mem_referenceListing hdb hreq]

/-- On an unchanged store the walk of V1 ends and lists every item of the reference listing
    exactly once, in the order of the walk of V2, exactly if no page ends on an item that
    stalls. -/
theorem v1_walk_exact_iff (hdb : WellKeyed db) (hreq : req.Valid) (hlimit : 0 < req.limit) :
    (∃ items, Follows (v1Page db req) [] items ∧ items.Nodup ∧ (∀ item, item ∈ items ↔ InListing db req item) ∧
        items = listed (listPages req none (List.replicate (db.objects.rows.length + 1) db))) ↔
      ∀ i, 1 ≤ i → i * req.limit < (referenceListing db req).length →
        ∀ item, (referenceListing db req)[i * req.limit - 1]? = some item → ¬ Stalls db req item := by
  have hstretches := v1_stretches hdb hreq hlimit
  have hasc := referenceListing_ascending hdb hreq
  have hnodup : (referenceListing db req).Nodup := (List.pairwise_map.mp hasc).imp fun h e => absurd (e ▸ h) (lt_irrefl _)
  have hresume : ∀ j, resumeAt db req j = j + 1 ↔
      ∀ item, (referenceListing db req)[j]? = some item → ¬ Stalls db req item := by
    intro j
    unfold resumeAt
    split
    · rename_i h
      obtain ⟨item, hitem, hs⟩ := h
      exact iff_of_false (by omega) fun h => h item hitem hs
    · rename_i h
      exact iff_of_true rfl fun item hitem hs => h ⟨item, hitem, hs⟩
  have hboundary : (∀ i, 1 ≤ i → i * req.limit < (referenceListing db req).length →
      resumeAt db req (i * req.limit - 1) = i * req.limit) ↔ ∀ i, 1 ≤ i → i * req.limit < (referenceListing db req).length →
        ∀ item, (referenceListing db req)[i * req.limit - 1]? = some item → ¬ Stalls db req item := by
    refine forall_congr' fun i => forall_congr' fun hi => imp_congr_right fun _ => ?_
    rw [← hresume, Nat.sub_add_cancel (Nat.mul_pos hi hlimit)]
  rw [← hboundary, listed_v2 hdb hreq hlimit]
  constructor
  · rintro ⟨items, hf, honce, hmem, -⟩
    refine (hstretches.exact_iff hnodup rfl).mp ⟨items, hf, honce, fun item => ?_⟩
    rw [hmem, mem_referenceListing hdb hreq]
  · intro h
    have hall := hstretches.lists_all (m := []) (k := 0) rfl (by simpa using h)
    exact ⟨_, hall, hnodup, fun item => mem_referenceListing hdb hreq, rfl⟩

end

/-- Pages of one object each. -/
theorem v1_walk_two_keys : ∃ items, Follows (v1Page twoKeys ⟨[98], [], none, none, 1⟩) [] items ∧ items.Nodup ∧
    (∀ item, item ∈ items ↔ InListing twoKeys ⟨[98], [], none, none, 1⟩ item) ∧
      items = listed (listPages ⟨[98], [], none, none, 1⟩ none (List.replicate (twoKeys.objects.rows.length + 1) twoKeys)) := by
  refine (v1_walk_exact_iff twoKeys_wellKeyed ⟨by decide, fun d hd => by cases hd⟩ Nat.one_pos).mpr ?_
  intro i _ _ item hitem
  have hobjects : (referenceListing twoKeys ⟨[98], [], none, none, 1⟩).all fun item =>
      item.objectKey.any fun key => !key.isEmpty := by rfl
  have hitem := List.all_eq_true.mp hobjects item (List.mem_of_getElem? hitem)
  cases item with
  | object m => simpa [ListItem.objectKey, Stalls] using hitem
  | commonPrefix p => simp [ListItem.objectKey] at hitem

/-- A page that ends on the common prefix `d/` is followed by itself. -/
theorem a_marker_stalls : ¬ ∃ items, Follows (v1Page twoKeys slashRequest) [] items ∧ items.Nodup ∧
    (∀ item, item ∈ items ↔ InListing twoKeys slashRequest item) ∧
      items = listed (listPages slashRequest none (List.replicate (twoKeys.objects.rows.length + 1) twoKeys)) := by
  have hloop : ∀ marker items, Follows (v1Page twoKeys slashRequest) marker items → marker ≠ [] ∧ marker ≠ [100, 47] := by
    intro marker items h
    have hstart : (v1Page twoKeys slashRequest []).2 = some [100, 47] := by rfl
    have hagain : (v1Page twoKeys slashRequest [100, 47]).2 = some [100, 47] := by rfl
    induction h with
    | last hm =>
      constructor
      · rintro rfl
        rw [hstart] at hm
        cases hm
      · rintro rfl
        rw [hagain] at hm
        cases hm
    | next hm _ ih =>
      constructor
      · rintro rfl
        rw [hstart] at hm
        exact ih.2 (Option.some.inj hm).symm
      · rintro rfl
        rw [hagain] at hm
        exact ih.2 (Option.some.inj hm).symm
  rintro ⟨items, h, -⟩
  exact (hloop [] items h).1 rfl

end S3lite
