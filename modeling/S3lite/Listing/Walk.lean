/-
  S3lite.Listing.Walk — following `list_objects` from page to page.

  A client starts without a cursor and passes each page's `next_cursor` on until a page is
  not truncated; every page may be served from another state (`listPages`).
  - `listPages_walk`: the names on the pages are a walk through the reference listings.
  - `list_walk`: the items come in strictly ascending order, each from the reference
    listing of its page's state; a key current in every state is covered exactly once; and
    on an unchanged state the walk ends and lists exactly the reference listing.
-/
import S3lite.Listing.Reference
import S3lite.Storage.Refcount

namespace S3lite

/-- The pages served, one from each state, until one is not truncated. -/
def listPages (req : ListObjectsRequest) (cursor : Option ListCursor) : List Db → List ListObjectsPage
  | [] => []
  | db :: dbs =>
    let page := handleListObjects db { req with cursor := cursor }
    page :: if page.truncated then listPages req page.nextCursor dbs else []

/-- The items on the pages, in order. -/
def listed (pages : List ListObjectsPage) : List ListItem := pages.flatMap (·.items)

def Ended (pages : List ListObjectsPage) : Prop := ∃ page ∈ pages, page.truncated = false

/-- The item lists the key, as itself or by its common prefix. -/
def ListItem.covers (key : Str) : ListItem → Bool
  | .object m => m.key.key = key
  | .commonPrefix p => p <+: key

section
variable {req : ListObjectsRequest} {db : Db} {dbs : List Db}

/-! ## The cursor is no part of the listing -/

theorem inListing_cursor (c : Option ListCursor) {item : ListItem} :
    InListing db { req with cursor := c } item ↔ InListing db req item := by
  constructor
  · intro h
    cases h with
    | object h1 h2 h3 => exact .object h1 h2 h3
    | commonPrefix h1 h2 h3 => exact .commonPrefix h1 h2 h3
  · intro h
    cases h with
    | object h1 h2 h3 => exact .object h1 h2 h3
    | commonPrefix h1 h2 h3 => exact .commonPrefix h1 h2 h3

theorem listingNames_cursor (c : Option ListCursor) : listingNames db { req with cursor := c } = listingNames db req := by
  unfold listingNames
  simp only [inListing_cursor]

theorem valid_cursor (hreq : req.Valid) (c : Option ListCursor) : ({ req with cursor := c } : ListObjectsRequest).Valid :=
  ⟨hreq.bucket, hreq.delimiter⟩

theorem meets_cursor {c c' : Option ListCursor} : ({ req with cursor := c } : ListObjectsRequest).Meets c' ↔ req.Meets c' := by
  constructor
  · intro h
    cases h with
    | none => exact .none
    | afterKey h1 h2 h3 => exact .afterKey h1 h2 h3
    | afterPrefix h1 h2 h3 => exact .afterPrefix h1 h2 h3
  · intro h
    cases h with
    | none => exact .none
    | afterKey h1 h2 h3 => exact .afterKey h1 h2 h3
    | afterPrefix h1 h2 h3 => exact .afterPrefix h1 h2 h3

/-! ## The walk -/

/-- Every item of a page is in the reference listing of the page's state. -/
theorem page_inListing (hreq : req.Valid) {c : Option ListCursor} (hc : req.Meets c) (hdb : WellKeyed db)
    {item : ListItem} (h : item ∈ (handleListObjects db { req with cursor := c }).items) : InListing db req item := by
  rw [handleListObjects_eq, cutPage_items] at h
  have := (mem_remaining hdb (valid_cursor hreq c) (meets_cursor.mpr hc)).mp (List.mem_of_mem_take h)
  exact (inListing_cursor c).mp this.1

/-- The cursor a truncated page hands on is that of its last item. -/
theorem next_cursor (hreq : req.Valid) {c : Option ListCursor} (hc : req.Meets c) (hlimit : 0 < req.limit)
    (hdb : WellKeyed db) (h : (handleListObjects db { req with cursor := c }).truncated = true) :
    ∃ last, (handleListObjects db { req with cursor := c }).items.getLast? = some last ∧
      (handleListObjects db { req with cursor := c }).nextCursor = some last.cursor ∧ req.Meets (some last.cursor) ∧
      cursorName (some last.cursor) = last.name := by
  obtain ⟨l, hl, -⟩ := (page_isPage hdb (valid_cursor hreq c) (meets_cursor.mpr hc) hlimit).cut h
  rw [List.getLast?_map] at hl
  obtain ⟨last, hlast, -⟩ := Option.map_eq_some_iff.mp hl
  have hin := page_inListing hreq hc hdb (List.mem_of_getLast? hlast)
  obtain ⟨hmeets, hname⟩ := item_cursor hdb hin
  have hnext := h
  rw [handleListObjects_eq] at hnext
  have := cutPage_next hnext
  rw [← handleListObjects_eq, hlast] at this
  exact ⟨last, hlast, this, hmeets, hname⟩

/-- The pages walk through the reference listings of their states. -/
theorem listPages_walk (hreq : req.Valid) (hlimit : 0 < req.limit) (hdbs : ∀ db ∈ dbs, WellKeyed db)
    {c : Option ListCursor} (hc : req.Meets c) :
    ∃ done, Walk (cursorName c) (dbs.map (listingNames · req)) ((listPages req c dbs).map fun p => p.items.map ListItem.name)
      done ∧ (done = true ↔ Ended (listPages req c dbs)) := by
  induction dbs generalizing c with
  | nil => exact ⟨false, .nil _, by simp [Ended, listPages]⟩
  | cons db dbs ih =>
    have hdb := hdbs db (List.mem_cons_self ..)
    have hpage := page_isPage hdb (valid_cursor hreq c) (meets_cursor.mpr hc) hlimit
    rw [listingNames_cursor] at hpage
    simp only [listPages, List.map_cons]
    by_cases ht : (handleListObjects db { req with cursor := c }).truncated
    · obtain ⟨last, hlast, hnext, hmeets, hname⟩ := next_cursor hreq hc hlimit hdb ht
      obtain ⟨done, hwalk, hdone⟩ := ih (fun d hd => hdbs d (List.mem_cons_of_mem _ hd)) hmeets
      refine ⟨done, ?_, ?_⟩
      · rw [ht] at hpage
        rw [if_pos ht, hnext]
        refine .next (l := last.name) hpage ?_ ?_
        · rw [List.getLast?_map, hlast]
          rfl
        · rw [hname] at hwalk
          exact hwalk
      · rw [hdone, if_pos ht, hnext]
        simp [Ended, ht]
    · refine ⟨true, ?_, ?_⟩
      · rw [Bool.not_eq_true] at ht
        rw [ht] at hpage ⊢
        exact .last _ hpage
      · simp [Ended, ht]

theorem map_name_listed (pages : List ListObjectsPage) :
    (listed pages).map ListItem.name = (pages.map fun p => p.items.map ListItem.name).flatten := by
  simp [listed, List.flatMap, List.map_flatten, Function.comp_def]

/-- Every page of a walk was served from a state, whose reference listing has its items. -/
theorem listPages_inListing (hreq : req.Valid) (hlimit : 0 < req.limit) (hdbs : ∀ db ∈ dbs, WellKeyed db)
    {c : Option ListCursor} (hc : req.Meets c) {i : Nat} {page : ListObjectsPage}
    (hpage : (listPages req c dbs)[i]? = some page) :
    ∃ db, dbs[i]? = some db ∧ ∀ item ∈ page.items, InListing db req item := by
  induction dbs generalizing c i with
  | nil => simp [listPages] at hpage
  | cons d dbs ih =>
    have hd := hdbs d (List.mem_cons_self ..)
    cases i with
    | zero =>
      simp only [listPages, List.getElem?_cons_zero, Option.some.injEq] at hpage
      subst hpage
      exact ⟨d, rfl, fun item => page_inListing hreq hc hd⟩
    | succ i =>
      simp only [listPages, List.getElem?_cons_succ] at hpage ⊢
      split at hpage
      · rename_i ht
        obtain ⟨last, -, hnext, hmeets, -⟩ := next_cursor hreq hc hlimit hd ht
        rw [hnext] at hpage
        exact ih (fun d hd => hdbs d (List.mem_cons_of_mem _ hd)) hmeets hpage
      · simp at hpage

theorem mem_listed (hreq : req.Valid) (hlimit : 0 < req.limit) (hdbs : ∀ db ∈ dbs, WellKeyed db)
    {item : ListItem} (h : item ∈ listed (listPages req none dbs)) : ∃ db ∈ dbs, InListing db req item := by
  obtain ⟨page, hpage, hitem⟩ := List.mem_flatMap.mp h
  obtain ⟨i, hi⟩ := List.getElem?_of_mem hpage
  obtain ⟨db, hdb, hin⟩ := listPages_inListing hreq hlimit hdbs .none hi
  exact ⟨db, List.mem_of_getElem? hdb, hin item hitem⟩

/-! ## Covering keys -/

/-- An item of a reference listing covers a key exactly when it has the key's name. -/
theorem covers_iff {item : ListItem} {key : Str} (h : InListing db req item) (hp : req.pre <+: key) :
    item.covers key = true ↔ item.name = (rollUp req.pre req.delimiter).name key := by
  obtain ⟨ρ, hρ⟩ : ∃ ρ, rollUp req.pre req.delimiter = ρ := ⟨_, rfl⟩
  cases h with
  | @object m hcur hpre hcp =>
    have hb := rollUp_block req.delimiter hpre
    rw [hcp, hρ] at hb
    simp only [ListItem.covers, ListItem.name, decide_eq_true_eq, hρ]
    constructor
    · rintro rfl
      exact (ρ.name_of_none hb).symm
    · intro hname
      cases hk : ρ.block key with
      | none => rw [hname, ρ.name_of_none hk]
      | some p =>
        rw [ρ.name_of_block hk] at hname
        rw [hname, ρ.block_stable key p hk p (List.prefix_refl p)] at hb
        cases hb
  | @commonPrefix k m p hcur hpre hcp =>
    have hb := rollUp_block req.delimiter hpre
    rw [hcp, hρ] at hb
    simp only [ListItem.covers, ListItem.name, decide_eq_true_eq, hρ]
    constructor
    · intro hin
      exact (ρ.name_of_block (ρ.block_stable k p hb key hin)).symm
    · intro hname
      rw [hname]
      exact ρ.name_prefix key

/-- A current object is listed, under its name. -/
theorem name_mem (hdb : WellKeyed db) {key : Str} {m : Manifest} (h : IsCurrent db req.bucket key m) (hp : req.pre <+: key) :
    (rollUp req.pre req.delimiter).name key ∈ listingNames db req := by
  obtain ⟨rfl, -⟩ := h.key_eq hdb
  have hb := rollUp_block req.delimiter hp
  cases hcp : commonPrefixOf req.pre req.delimiter m.key.key with
  | none =>
    rw [hcp] at hb
    exact ⟨_, .object h hp hcp, ((rollUp req.pre req.delimiter).name_of_none hb).symm⟩
  | some p =>
    rw [hcp] at hb
    exact ⟨_, .commonPrefix h hp hcp, ((rollUp req.pre req.delimiter).name_of_block hb).symm⟩

/-- Every item of a reference listing stands for a row: the object's own, or one of a key
    under the common prefix. -/
theorem inListing_row (hdb : WellKeyed db) {item : ListItem} (h : InListing db req item) :
    ∃ r ∈ db.objects.rows, (rollUp req.pre req.delimiter).name r.2.key.key = item.name ∧
      IsCurrent db req.bucket r.2.key.key r.2 ∧ req.pre <+: r.2.key.key := by
  cases h with
  | @object m hcur hp hcp =>
    obtain ⟨⟨k, hk⟩, -⟩ := mem_versionsOf.mp (get_latest_mem hdb hcur.1)
    have hb := rollUp_block req.delimiter hp
    rw [hcp] at hb
    exact ⟨(k, m), hk, RollUp.name_of_none _ hb, hcur, hp⟩
  | @commonPrefix key m p hcur hp hcp =>
    obtain ⟨⟨k, hk⟩, -⟩ := mem_versionsOf.mp (get_latest_mem hdb hcur.1)
    obtain ⟨rfl, -⟩ := hcur.key_eq hdb
    have hb := rollUp_block req.delimiter hp
    rw [hcp] at hb
    exact ⟨(k, m), hk, RollUp.name_of_block _ hb, hcur, hp⟩

/-- A reference listing has one item of a name. -/
theorem inListing_inj {a b : ListItem} (ha : InListing db req a) (hb : InListing db req b) (h : a.name = b.name) :
    a = b := by
  have hno : ∀ {k p : Str}, req.pre <+: k → commonPrefixOf req.pre req.delimiter k = some p → req.pre <+: p →
      commonPrefixOf req.pre req.delimiter p ≠ none := by
    intro k p hk hcp hp hnone
    rw [← rollUp_block _ hk] at hcp
    have := (rollUp req.pre req.delimiter).block_stable k p hcp p (List.prefix_refl p)
    rw [rollUp_block _ hp, hnone] at this
    cases this
  cases ha with
  | object h1 h2 h3 =>
    cases hb with
    | object h4 h5 h6 =>
      simp only [ListItem.name] at h
      have := h1.1.symm.trans (h ▸ h4.1)
      cases this
      rfl
    | commonPrefix h4 h5 h6 =>
      simp only [ListItem.name] at h
      subst h
      exact absurd h3 (hno h5 h6 h2)
  | commonPrefix h1 h2 h3 =>
    cases hb with
    | object h4 h5 h6 =>
      simp only [ListItem.name] at h
      subst h
      exact absurd h6 (hno h2 h3 h5)
    | commonPrefix h4 h5 h6 =>
      simp only [ListItem.name] at h
      rw [h]

/-! ## Following the cursor -/

theorem countP_eq_one {α β : Type} [DecidableEq β] (f : α → β) {l : List α} {b : β} (hnd : (l.map f).Nodup)
    (hb : b ∈ l.map f) {p : α → Bool} (hp : ∀ a ∈ l, p a = true ↔ f a = b) : l.countP p = 1 := by
  have h : l.countP p = (l.map f).count b := by
    rw [List.count, List.countP_map]
    refine List.countP_congr fun a ha => ?_
    simp [hp a ha]
  rw [h, List.count_eq_one_of_mem hnd hb]

/-- The items come in strictly ascending order. -/
theorem listed_ascending (hreq : req.Valid) (hlimit : 0 < req.limit) (hdbs : ∀ db ∈ dbs, WellKeyed db) :
    ((listed (listPages req none dbs)).map ListItem.name).Pairwise (· < ·) := by
  obtain ⟨done, hwalk, -⟩ := listPages_walk hreq hlimit hdbs .none
  rw [map_name_listed]
  exact hwalk.ascending.1

/-- A walk that ended has listed every key that was current in the states it saw. -/
theorem listed_covers (hreq : req.Valid) (hlimit : 0 < req.limit) (hdbs : ∀ db ∈ dbs, WellKeyed db)
    (hend : Ended (listPages req none dbs)) {key : Str} (hp : req.pre <+: key)
    (hcur : ∀ db ∈ dbs.take (listPages req none dbs).length, ∃ m, IsCurrent db req.bucket key m) :
    (rollUp req.pre req.delimiter).name key ∈ (listed (listPages req none dbs)).map ListItem.name := by
  obtain ⟨done, hwalk, hdone⟩ := listPages_walk hreq hlimit hdbs .none
  rw [map_name_listed]
  refine hwalk.covers (hdone.mpr hend) (WithBot.bot_lt_coe _) ?_
  intro S hS
  rw [List.length_map, ← List.map_take] at hS
  obtain ⟨d, hd, rfl⟩ := List.mem_map.mp hS
  obtain ⟨m, hm⟩ := hcur d hd
  exact name_mem (hdbs d (List.mem_of_mem_take hd)) hm hp

/-- On an unchanged state the walk ends, and what it has listed then is the reference
    listing. -/
theorem listed_unchanged (hreq : req.Valid) (hlimit : 0 < req.limit) (hdbs : ∀ db ∈ dbs, WellKeyed db)
    (hsame : ∀ d ∈ dbs, d = db) : (db.objects.rows.length < dbs.length → Ended (listPages req none dbs)) ∧
      (Ended (listPages req none dbs) → ∀ item, item ∈ listed (listPages req none dbs) ↔ InListing db req item) := by
  obtain ⟨done, hwalk, hdone⟩ := listPages_walk hreq hlimit hdbs .none
  have hin : ∀ item ∈ listed (listPages req none dbs), InListing db req item := by
    intro item hitem
    obtain ⟨d, hd, h⟩ := mem_listed hreq hlimit hdbs hitem
    rwa [hsame d hd] at h
  constructor
  · intro hlen
    have hdb : WellKeyed db := by
      obtain ⟨d, hd⟩ := List.exists_mem_of_length_pos (Nat.lt_of_le_of_lt (Nat.zero_le _) hlen)
      exact hsame d hd ▸ hdbs d hd
    refine hdone.mp (hwalk.ends (db.objects.rows.map fun r => (rollUp req.pre req.delimiter).name r.2.key.key)
      ?_ (by simpa using hlen))
    intro n hn
    rw [← map_name_listed] at hn
    obtain ⟨item, hitem, rfl⟩ := List.mem_map.mp hn
    obtain ⟨r, hr, hname, -⟩ := inListing_row hdb (hin item hitem)
    exact List.mem_map.mpr ⟨r, hr, hname⟩
  · intro hend item
    refine ⟨hin item, fun h => ?_⟩
    have hdb : WellKeyed db := by
      obtain ⟨page, hpage, -⟩ := hend
      obtain ⟨i, hi⟩ := List.getElem?_of_mem hpage
      obtain ⟨d, hd, -⟩ := listPages_inListing hreq hlimit hdbs .none hi
      have hd := List.mem_of_getElem? hd
      exact hsame d hd ▸ hdbs d hd
    obtain ⟨r, hr, hname, hcur, hp⟩ := inListing_row hdb h
    have hmem := listed_covers hreq hlimit hdbs hend hp fun d hd => ⟨r.2, hsame d (List.mem_of_mem_take hd) ▸ hcur⟩
    rw [hname] at hmem
    obtain ⟨item', hitem', hname'⟩ := List.mem_map.mp hmem
    rwa [← inListing_inj (hin item' hitem') h hname']

/-- Following `list_objects` from the start over any states: the items listed are strictly
    ascending; each is in the reference listing of the state its page was served from; when
    the walk has ended, a key with the prefix that was current in every state seen is
    covered exactly once. On an unchanged state the walk ends, and what it has listed then
    is the reference listing. -/
theorem list_walk (hreq : req.Valid) (hlimit : 0 < req.limit) (hdbs : ∀ db ∈ dbs, WellKeyed db) :
    ((listed (listPages req none dbs)).map ListItem.name).Pairwise (· < ·) ∧
    (∀ (i : Nat) (page : ListObjectsPage), (listPages req none dbs)[i]? = some page →
      ∃ db, dbs[i]? = some db ∧ ∀ item ∈ page.items, InListing db req item) ∧
    (Ended (listPages req none dbs) → ∀ key, req.pre <+: key →
      (∀ db ∈ dbs.take (listPages req none dbs).length, ∃ m, IsCurrent db req.bucket key m) →
      (listed (listPages req none dbs)).countP (ListItem.covers key) = 1) ∧
    (∀ db, (∀ d ∈ dbs, d = db) →
      (db.objects.rows.length < dbs.length → Ended (listPages req none dbs)) ∧
      (Ended (listPages req none dbs) → ∀ item, item ∈ listed (listPages req none dbs) ↔ InListing db req item)) := by
  have hasc := listed_ascending hreq hlimit hdbs
  refine ⟨hasc, fun i page h => listPages_inListing hreq hlimit hdbs .none h, ?_,
    fun db hsame => listed_unchanged hreq hlimit hdbs hsame⟩
  intro hend key hp hcur
  refine countP_eq_one ListItem.name (hasc.imp fun h => h.ne) (listed_covers hreq hlimit hdbs hend hp hcur) ?_
  intro item hitem
  obtain ⟨d, -, hin⟩ := mem_listed hreq hlimit hdbs hitem
  exact covers_iff hin hp

end

/-- Two keys of bucket `b`: `d/x` and `k`. -/
def twoKeys : Db := dbOf [bare ⟨[98], [100, 47, 120], [118]⟩ .committed [], bare ⟨[98], [107], [118]⟩ .committed []]

def slashRequest : ListObjectsRequest := ⟨[98], [], some [47], none, 1⟩

theorem twoKeys_wellKeyed : WellKeyed twoKeys := by
  refine dbOf_wellKeyed ?_
  intro m hm
  simp only [List.mem_cons, List.not_mem_nil, or_false] at hm
  rcases hm with rfl | rfl <;> exact ⟨by decide, by decide, by decide⟩

theorem list_walk_two_keys :
    (listed (listPages slashRequest none [twoKeys, twoKeys])).countP (ListItem.covers [100, 47, 120]) = 1 := by
  have hreq : slashRequest.Valid := by
    refine ⟨by decide, ?_⟩
    intro d hd
    cases hd
    exact ⟨by decide, ['/'], rfl⟩
  have hcurrent : ∃ m, IsCurrent twoKeys [98] [100, 47, 120] m := by
    have h : (handleGetLatestVersion twoKeys [98] [100, 47, 120]).map (·.kind) = some .object := by decide
    obtain ⟨m, hm, hk⟩ := Option.map_eq_some_iff.mp h
    exact ⟨m, hm, hk⟩
  have hsame : ∀ db ∈ [twoKeys, twoKeys], db = twoKeys := by
    intro db hdb
    simpa using hdb
  refine (list_walk hreq (by decide) fun db hdb => hsame db hdb ▸ twoKeys_wellKeyed).2.2.1 ?_ [100, 47, 120] (by decide) ?_
  · show ∃ page ∈ listPages slashRequest none [twoKeys, twoKeys], page.truncated = false
    decide
  · intro db hdb
    rw [hsame db (List.mem_of_mem_take hdb)]
    exact hcurrent

end S3lite
