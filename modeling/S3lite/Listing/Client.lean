/-
  S3lite.Listing.Client — what a client that follows the continuation tokens of `list_v2` gets to
  know, against what it can read.

  - `Browsing`: the client asks for page after page, with the token of the last answer, until an
    answer has none. It may write its queries as it likes.
  - `Browsing.follows`: the pages are those of the store's own walk.
  - `listed_iff_read`: every request of the walk is answered with a page, the walk ends, and in
    the end the client has seen exactly the keys that a GET finds, in order and with the size and
    the ETag of what the GET sends; a common prefix is listed, once, for the keys rolled up to it.
-/
import S3lite.Listing.Marker
import S3lite.Ranges.Get

namespace S3lite

open Handler

/-- What a query of the second version of the API asks for. -/
structure AsksV2 (params : Params) (req : ListObjectsRequest) (encoding token : Option Str) : Prop where
  listType : Table.get params (str "list-type") = some (str "2")
  pre : params.getString (str "prefix") = req.pre
  delimiter : params.delimiter = req.delimiter
  maxKeys : parseMaxKeys (Table.get params (str "max-keys")) = .ok req.limit
  encodes : parseEncoding (Table.get params (str "encoding-type")) = .ok encoding
  continues : Table.get params (str "continuation-token") = token
  starts : token = none → Table.get params (str "start-after") = none

/-- The pages a client has been given, and the token of its next request, if there is one. -/
inductive Browsing (env : Env) (req : ListObjectsRequest) (encoding : Option Str) (w0 : World) :
    List ListBucketResultV2 → Option (Option Str) → World → Prop
  | start : Browsing env req encoding w0 [] (some none) w0
  | page {answers : List ListBucketResultV2} {token : Option Str} {w w' : World} {query : Str} {a : ListBucketResultV2} :
      Browsing env req encoding w0 answers (some token) w → AsksV2 (parseQuery query) req encoding token →
        run env (listObjects env req.bucket query) w = (.ok (.ofXml (.listBucketV2 a)), w') →
          Browsing env req encoding w0 (answers ++ [a]) (a.nextContinuationToken.map some) w'

/-- A GET finds the key. -/
def Readable (env : Env) (w : World) (bucket key : Str) : Prop :=
  ∃ resp, (run env (getOrHeadObject env bucket key none [] false) w).1 = .ok resp

/-- The entry is of what a GET of the key sends. -/
def ReadAs (env : Env) (w : World) (bucket : Str) (encoding : Option Str) (key : Str) (c : ObjectContent) : Prop :=
  c.key = encodeValue key encoding ∧ ∃ resp data, (run env (getOrHeadObject env bucket key none [] false) w).1 = .ok resp ∧
    resp.body = .bytes data ∧ c.size = data.length ∧ resp.headers.get (str "etag") = some c.etag

/-- The answers list what can be read: keys, and prefixes that keys are rolled up to. -/
structure ListsReadable (env : Env) (w : World) (req : ListObjectsRequest) (encoding : Option Str)
    (answers : List ListBucketResultV2) : Prop where
  contents : ∃ keys : List Str, keys.Pairwise (· < ·) ∧
    (∀ key, key ∈ keys ↔ req.pre <+: key ∧ commonPrefixOf req.pre req.delimiter key = none ∧ Readable env w req.bucket key) ∧
      List.Forall₂ (ReadAs env w req.bucket encoding) keys (answers.flatMap (·.contents))
  commonPrefixes : ∃ prefixes : List Str, prefixes.Pairwise (· < ·) ∧
    (∀ p, p ∈ prefixes ↔ ∃ key, req.pre <+: key ∧ commonPrefixOf req.pre req.delimiter key = some p ∧ Readable env w req.bucket key) ∧
      answers.flatMap (·.commonPrefixes) = prefixes.map (encodeValue · encoding)

section
variable {env : Env} {w : World} {db : Db} {req : ListObjectsRequest} {encoding : Option Str}

/-! ## One page -/

def ListItem.manifest : ListItem → Option Manifest
  | .object m => some m
  | .commonPrefix _ => none

/-- The entry of an object. -/
def entryOf (env : Env) (encoding : Option Str) (m : Manifest) : ObjectContent :=
  ⟨encodeValue m.key.key encoding, env.formatRfc3339 m.lastModified, (m.etag env.md5 env.debug).getD [], m.size, m.storageClass⟩

/-- The answer that has the page. -/
def v2Answer (env : Env) (req : ListObjectsRequest) (encoding : Option Str) (params : Params) (page : ListObjectsPage) :
    ListBucketResultV2 :=
  let contents := (page.items.filterMap ListItem.manifest).map (entryOf env encoding)
  let commonPrefixes := (page.items.filterMap ListItem.rolledUp).map (encodeValue · encoding)
  { name := req.bucket
    pre := encodeValue req.pre encoding
    keyCount := contents.length + commonPrefixes.length
    maxKeys := req.limit
    delimiter := req.delimiter.map (encodeValue · encoding)
    isTruncated := page.truncated
    encodingType := encoding
    continuationToken := Table.get params (str "continuation-token")
    nextContinuationToken := page.nextCursor.map env.encodeContinuationToken
    startAfter := Table.get params (str "start-after")
    contents := contents
    commonPrefixes := commonPrefixes }

theorem run_splitItems {items : List ListItem} (hetag : ∀ m, .object m ∈ items → (m.etag env.md5 env.debug).isSome = true) :
    run env (splitItems env encoding items) w = (.ok ((items.filterMap ListItem.manifest).map (entryOf env encoding),
      (items.filterMap ListItem.rolledUp).map (encodeValue · encoding)), w) := by
  induction items with
  | nil => rfl
  | cons item items ih =>
    have hrest := ih fun m hm => hetag m (List.mem_cons_of_mem _ hm)
    cases item with
    | object m =>
      obtain ⟨etag, he⟩ := Option.isSome_iff_exists.mp (hetag m (List.mem_cons_self ..))
      have hetagOf : etagOf env m = ok etag := by
        unfold etagOf
        rw [he]
      rw [splitItems, hetagOf, run_bind, run_ok]
      simp only [run_bind, hrest]
      rw [List.filterMap_cons_some (show ListItem.manifest (.object m) = some m from rfl), List.map_cons,
        List.filterMap_cons_none (show ListItem.rolledUp (.object m) = none from rfl)]
      simp only [entryOf, he, Option.getD_some]
      rfl
    | commonPrefix p =>
      rw [splitItems, run_bind, hrest,
        List.filterMap_cons_some (show ListItem.rolledUp (.commonPrefix p) = some p from rfl),
        List.filterMap_cons_none (show ListItem.manifest (.commonPrefix p) = none from rfl)]
      rfl

/-- A request is answered with the store's page. -/
theorem run_listObjects {query : Str} {token : Option Str} {c : Option ListCursor} (hb : (w.db.buckets.get req.bucket).isSome = true)
    (hasks : AsksV2 (parseQuery query) req encoding token) (hc : token = c.map env.encodeContinuationToken)
    (hcodec : ∀ d, c = some d → env.decodeContinuationToken (env.encodeContinuationToken d) = .ok d)
    (hetag : ∀ m, .object m ∈ (handleListObjects w.db { req with cursor := c }).items → (m.etag env.md5 env.debug).isSome = true) :
    run env (listObjects env req.bucket query) w = (.ok (.ofXml (.listBucketV2
      (v2Answer env req encoding (parseQuery query) (handleListObjects w.db { req with cursor := c })))), { w with clock := w.clock + 4 }) := by
  obtain ⟨cfg, hcfg⟩ := Option.isSome_iff_exists.mp hb
  have hcursor : listV2Cursor env (parseQuery query) = .ok c := by
    unfold listV2Cursor
    rw [hasks.continues, hc]
    cases c with
    | none =>
      rw [Option.map_none]
      dsimp only
      rw [hasks.starts hc]
      rfl
    | some d =>
      rw [Option.map_some]
      dsimp only
      rw [hcodec d rfl]
      rfl
  have hbucket : run env (requireBucket req.bucket) w = (.ok cfg, { w with clock := w.clock + 2 }) := by
    unfold requireBucket
    rw [run_bind, run_op]
    show run env (orFail (w.db.buckets.get req.bucket) _) _ = _
    rw [hcfg]
    rfl
  have hpage : exec env (.metaOp (.listObjects ⟨req.bucket, (parseQuery query).getString (str "prefix"), (parseQuery query).delimiter, c,
      req.limit⟩)) { w with clock := w.clock + 2 } = (handleListObjects w.db { req with cursor := c }, { w with clock := w.clock + 4 }) := by
    show (handleListObjects w.db ⟨req.bucket, _, _, c, req.limit⟩, _) = _
    rw [hasks.pre, hasks.delimiter]
    rfl
  have hsplit : run env (splitItems env encoding _) { w with clock := w.clock + 4 } = _ := run_splitItems hetag
  rw [listObjects, run_bind, hbucket]
  dsimp only
  rw [if_pos hasks.listType, listV2, hasks.maxKeys, hasks.encodes, hcursor]
  refine (run_op_bind env hpage).trans ?_
  rw [run_bind, hsplit]
  unfold v2Answer
  rw [← hasks.pre, ← hasks.delimiter]
  rfl

/-! ## The walk -/

/-- Every object of the store has an ETag. -/
def Tagged (env : Env) (db : Db) : Prop := ∀ bucket key m, IsCurrent db bucket key m → (m.etag env.md5 env.debug).isSome = true

/-- The answers have these pages. -/
def Carry (env : Env) (encoding : Option Str) (pages : List ListObjectsPage) (answers : List ListBucketResultV2) : Prop :=
  answers.length = pages.length ∧
    answers.flatMap (·.contents) = ((listed pages).filterMap ListItem.manifest).map (entryOf env encoding) ∧
      answers.flatMap (·.commonPrefixes) = ((listed pages).filterMap ListItem.rolledUp).map (encodeValue · encoding)

theorem Carry.page {pages : List ListObjectsPage} {answers : List ListBucketResultV2} (h : Carry env encoding pages answers)
    (params : Params) (page : ListObjectsPage) :
    Carry env encoding (pages ++ [page]) (answers ++ [v2Answer env req encoding params page]) := by
  obtain ⟨hlen, hcontents, hprefixes⟩ := h
  have hlisted : listed (pages ++ [page]) = listed pages ++ page.items := by
    unfold listed
    rw [List.flatMap_append, List.flatMap_singleton]
  refine ⟨?_, ?_, ?_⟩
  · rw [List.length_append, List.length_append, hlen, List.length_singleton, List.length_singleton]
  · rw [List.flatMap_append, List.flatMap_singleton, hcontents, hlisted, List.filterMap_append, List.map_append]
    rfl
  · rw [List.flatMap_append, List.flatMap_singleton, hprefixes, hlisted, List.filterMap_append, List.map_append]
    rfl

/-- Where a client is on the store's own walk. -/
inductive OnWalk (env : Env) (req : ListObjectsRequest) (db : Db) (pages : List ListObjectsPage) : Option (Option Str) → Prop
  | going (c : Option ListCursor) : req.Meets c → (∀ page ∈ pages, page.truncated = true) →
      (∀ n, listPages req none (List.replicate (pages.length + n) db) = pages ++ listPages req c (List.replicate n db)) →
        OnWalk env req db pages (some (c.map env.encodeContinuationToken))
  | done : (∀ n, listPages req none (List.replicate (pages.length + n) db) = pages) → Ended pages → OnWalk env req db pages none

theorem page_tagged (htagged : Tagged env db) (hdb : WellKeyed db) (hreq : req.Valid) {c : Option ListCursor} (hc : req.Meets c)
    {m : Manifest} (hm : .object m ∈ (handleListObjects db { req with cursor := c }).items) : (m.etag env.md5 env.debug).isSome = true := by
  cases page_inListing hreq hc hdb hm with
  | object hcur => exact htagged _ _ m hcur

/-- A page on: the walk has its next cursor, or ends with it. -/
theorem OnWalk.page (hdb : WellKeyed db) (hreq : req.Valid) (hlimit : 0 < req.limit) {pages : List ListObjectsPage} {c : Option ListCursor}
    (hc : req.Meets c) (hcut : ∀ page ∈ pages, page.truncated = true)
    (hwalk : ∀ n, listPages req none (List.replicate (pages.length + n) db) = pages ++ listPages req c (List.replicate n db)) :
    OnWalk env req db (pages ++ [handleListObjects db { req with cursor := c }])
      (((handleListObjects db { req with cursor := c }).nextCursor.map env.encodeContinuationToken).map some) := by
  obtain ⟨page, hpage⟩ : ∃ page, handleListObjects db { req with cursor := c } = page := ⟨_, rfl⟩
  have hnext : ∀ n, listPages req none (List.replicate ((pages ++ [page]).length + n) db) =
      pages ++ (page :: if page.truncated then listPages req page.nextCursor (List.replicate n db) else []) := by
    intro n
    rw [List.length_append, List.length_singleton, Nat.add_assoc, hwalk, Nat.add_comm 1 n, List.replicate_succ, listPages, hpage]
  by_cases ht : page.truncated = true
  · obtain ⟨last, -, hcursor, hmeets, -⟩ := next_cursor hreq hc hlimit hdb (hpage.symm ▸ ht)
    rw [hpage] at hcursor ⊢
    rw [hcursor]
    refine .going (some last.cursor) hmeets (fun p hp => ?_) fun n => ?_
    · rcases List.mem_append.mp hp with hp | hp
      · exact hcut p hp
      · rw [List.mem_singleton.mp hp, ht]
    · rw [hnext, if_pos ht, hcursor, List.append_assoc]
      rfl
  · have hnone : page.nextCursor = none := by
      rw [← hpage, handleListObjects_eq]
      unfold cutPage
      split
      · rfl
      · rename_i hlong
        rw [← hpage, handleListObjects_eq, cutPage, if_neg hlong] at ht
        exact absurd rfl ht
    rw [hpage, hnone]
    refine .done (fun n => ?_) ⟨page, List.mem_append_right _ (List.mem_singleton_self _), Bool.not_eq_true _ ▸ ht⟩
    rw [hnext, if_neg ht]

/-- The answers a client was given are those of the store's own walk. -/
theorem Browsing.follows {w0 : World} (hdb : WellKeyed w0.db) (hreq : req.Valid) (hlimit : 0 < req.limit) (htagged : Tagged env w0.db)
    (hb : (w0.db.buckets.get req.bucket).isSome = true)
    (hcodec : ∀ d, req.Meets (some d) → env.decodeContinuationToken (env.encodeContinuationToken d) = .ok d)
    {answers : List ListBucketResultV2} {next : Option (Option Str)} (h : Browsing env req encoding w0 answers next w) :
    w.db = w0.db ∧ ∃ pages, Carry env encoding pages answers ∧ OnWalk env req w0.db pages next := by
  induction h with
  | start => exact ⟨rfl, [], ⟨rfl, rfl, rfl⟩, .going none .none (fun _ hp => absurd hp List.not_mem_nil) fun n => by simp⟩
  | @page answers token w w' query a _ hasks hrun ih =>
    obtain ⟨hw, pages, hcarry, hon⟩ := ih
    cases hon with
    | going c hc hcut hwalk =>
      have hanswer : run env (listObjects env req.bucket query) w = _ := run_listObjects (hw ▸ hb) hasks rfl
        (fun d hd => hcodec d (hd ▸ hc)) fun m hm => page_tagged htagged hdb hreq hc (hw ▸ hm)
      rw [hrun, hw] at hanswer
      cases hanswer
      exact ⟨rfl, _, hcarry.page _ _, OnWalk.page hdb hreq hlimit hc hcut hwalk⟩

/-! ## Reading -/

theorem isHeaderValue_append {a b : Str} (ha : isHeaderValue a = true) (hb : isHeaderValue b = true) : isHeaderValue (a ++ b) = true := by
  unfold isHeaderValue
  rw [List.all_append, Bool.and_eq_true_iff]
  exact ⟨ha, hb⟩

theorem isHeaderValue_hexEncode (b : Bytes) : isHeaderValue (hexEncode b) = true := by
  have hdigit : ∀ n < 16, isHeaderValue [hexDigit n] = true := by decide
  induction b with
  | nil => rfl
  | cons c b ih =>
    have hc := c.toNat_lt
    show isHeaderValue ([hexDigit (c.toNat / 16)] ++ ([hexDigit (c.toNat % 16)] ++ hexEncode b)) = true
    exact isHeaderValue_append (hdigit _ (by omega)) (isHeaderValue_append (hdigit _ (by omega)) ih)

theorem isHeaderValue_etag {m : Manifest} {etag : Str} (h : m.etag env.md5 env.debug = some etag) : isHeaderValue etag = true := by
  have hquote : ∀ s, isHeaderValue s = true → isHeaderValue (quote s) = true := fun s hs =>
    isHeaderValue_append (isHeaderValue_append (by decide) hs) (by decide)
  unfold Manifest.etag at h
  split at h
  · split at h
    · cases h
    · obtain ⟨part, -, rfl⟩ := Option.map_eq_some_iff.mp h
      exact hquote _ (isHeaderValue_hexEncode _)
  · obtain rfl := Option.some.inj h
    exact hquote _ (isHeaderValue_append (isHeaderValue_append (isHeaderValue_hexEncode _) (by decide)) (isHeaderValue_natStr _))

/-- The ETag of an object is sent with it. -/
theorem etag_sent {m : Manifest} {etag : Str} (h : m.etag env.md5 env.debug = some etag) (data : Bytes) :
    (sentFor env m etag data none).headers.get (str "etag") = some etag := by
  refine (get_laterHeaders none (by decide) (by decide) _).trans ?_
  refine (get_setHeader_ne (by decide)).trans ((get_setHeader_ne (by decide)).trans ((get_setHeader_ne (by decide)).trans
    ((get_setHeader_ne (by decide)).trans ?_)))
  exact get_setHeader_self (by decide) (by decide) (isHeaderValue_etag h)

theorem get_noConditions : NoConditions [] := ⟨rfl, rfl, rfl, rfl⟩

theorem current_committed (hdb : WellKeyed db) {bucket key : Str} {m : Manifest} (h : handleGetLatestVersion db bucket key = some m) :
    m.state = .committed := (mem_versionsOf.mp (get_latest_mem hdb h)).2.1

section
variable (hsteady : Steady env w .start .start) (hstocked : Stocked env w .start .start)
include hsteady hstocked

theorem tagged_of_stocked : Tagged env w.db := by
  intro bucket key m hcur
  obtain ⟨⟨slot, hslot⟩, -⟩ := hsteady.bucket_of_found (show foundVersion _ _ _ none = _ from hcur.1)
  exact (hstocked.measured _ (Table.mem_rows.mpr hslot)).etag_isSome (current_committed hsteady.tidy.wellKeyed hcur.1) hcur.2

/-- A GET sends the current object. -/
theorem readAs_current {bucket key : Str} {m : Manifest} (hcur : IsCurrent w.db bucket key m) :
    ReadAs env w bucket encoding key (entryOf env encoding m) := by
  have hfound : foundVersion w.db bucket key none = some m := hcur.1
  obtain ⟨⟨slot, hslot⟩, hb⟩ := hsteady.bucket_of_found hfound
  obtain ⟨etag, hetag⟩ := Option.isSome_iff_exists.mp (tagged_of_stocked hsteady hstocked _ _ _ hcur)
  have hintact := hstocked.intact hslot
  have hget := ensures_getObject hb hfound (current_committed hsteady.tidy.wellKeyed hcur.1) hcur.2 hetag hintact
    get_noConditions
  refine ⟨by rw [(hcur.key_eq hsteady.tidy.wellKeyed).1.symm]; rfl, sentFor env m etag (objectBytes w m) none, objectBytes w m, ?_,
    (sendsWhole hintact).body, hintact.length.symm, ?_⟩
  · unfold Ensures at hget
    split at hget
    · rename_i resp w' hrun
      obtain ⟨range, hrange, rfl⟩ := hget
      cases hrange
      rw [hrun]
    · obtain ⟨e, -, herror⟩ := hget
      cases herror
  · rw [etag_sent hetag]
    simp only [entryOf, hetag, Option.getD_some]

/-- A GET finds the keys that have a current object. -/
theorem readable_iff {bucket key : Str} : Readable env w bucket key ↔ ∃ m, IsCurrent w.db bucket key m := by
  constructor
  · intro hreadable
    obtain ⟨resp, hresp⟩ := hreadable
    have hget : Ensures env (getOrHeadObject env bucket key none [] false) w (fun _ _ => ∃ m, IsCurrent w.db bucket key m)
        fun _ _ => True := by
      rw [getOrHeadObject, ensures_bind, ensures_requireBucket]
      refine ⟨fun _ _ => ?_, fun _ => trivial⟩
      rw [ensures_bind, findVersion, ensures_bind, ensures_op, ensures_orFail]
      refine ⟨fun m hm => ?_, fun _ => trivial⟩
      rw [ensures_bind, ensures_ensure]
      refine ⟨fun hk => ?_, fun _ => trivial⟩
      unfold Ensures
      split
      · exact ⟨m, hm, hk⟩
      · trivial
    exact hget.ok (Prod.ext hresp rfl)
  · intro hcur
    obtain ⟨m, hcur⟩ := hcur
    have hread : ReadAs env w bucket none key (entryOf env none m) := readAs_current hsteady hstocked hcur
    obtain ⟨-, resp, -, hget, -⟩ := hread
    exact ⟨resp, hget⟩

end

/-! ## The whole listing -/

theorem mem_manifests {items : List ListItem} {m : Manifest} : m ∈ items.filterMap ListItem.manifest ↔ .object m ∈ items := by
  rw [List.mem_filterMap]
  constructor
  · intro h
    obtain ⟨item, hitem, he⟩ := h
    cases item with
    | object m' =>
      cases he
      exact hitem
    | commonPrefix p => cases he
  · exact fun h => ⟨_, h, rfl⟩

theorem mem_rolledUp {items : List ListItem} {p : Str} : p ∈ items.filterMap ListItem.rolledUp ↔ .commonPrefix p ∈ items := by
  rw [List.mem_filterMap]
  constructor
  · intro h
    obtain ⟨item, hitem, he⟩ := h
    cases item with
    | object m => cases he
    | commonPrefix p' =>
      cases he
      exact hitem
  · exact fun h => ⟨_, h, rfl⟩

/-- Names of some of the items ascend as those of all do. -/
theorem ascending_some {items : List ListItem} (h : (items.map ListItem.name).Pairwise (· < ·)) {α : Type} (f : ListItem → Option α)
    (name : α → Str) (hname : ∀ item a, f item = some a → item.name = name a) : ((items.filterMap f).map name).Pairwise (· < ·) := by
  rw [List.pairwise_map] at h ⊢
  rw [List.pairwise_filterMap]
  refine h.imp fun hlt a ha b hb => ?_
  rw [← hname _ a ha, ← hname _ b hb]
  exact hlt

/-- A walk that goes on has not gone through all the rows. -/
theorem OnWalk.short {pages : List ListObjectsPage} {token : Option Str} (hdb : WellKeyed db) (hreq : req.Valid)
    (hlimit : 0 < req.limit) (h : OnWalk env req db pages (some token)) : pages.length ≤ db.objects.rows.length := by
  cases h with
  | going c _ hcut hwalk =>
    by_contra hlong
    have hsame : ∀ d ∈ List.replicate pages.length db, d = db := fun d hd => List.eq_of_mem_replicate hd
    have hended := (listed_unchanged hreq hlimit (fun d hd => hsame d hd ▸ hdb) hsame).1 (by rw [List.length_replicate]; omega)
    have hpages : listPages req none (List.replicate pages.length db) = pages := by
      have h0 := hwalk 0
      rwa [Nat.add_zero, List.replicate_zero, listPages, List.append_nil] at h0
    rw [hpages] at hended
    obtain ⟨page, hpage, hlast⟩ := hended
    rw [hcut page hpage] at hlast
    cases hlast

/-- What a walk that ended has listed is the reference listing, in order. -/
theorem OnWalk.complete {pages : List ListObjectsPage} (hdb : WellKeyed db) (hreq : req.Valid) (hlimit : 0 < req.limit)
    (h : OnWalk env req db pages none) : ((listed pages).map ListItem.name).Pairwise (· < ·) ∧
      ∀ item, item ∈ listed pages ↔ InListing db req item := by
  cases h with
  | done hwalk hended =>
    have hsame : ∀ d ∈ List.replicate pages.length db, d = db := fun d hd => List.eq_of_mem_replicate hd
    have hkeyed : ∀ d ∈ List.replicate pages.length db, WellKeyed d := fun d hd => hsame d hd ▸ hdb
    have hpages : listPages req none (List.replicate pages.length db) = pages := hwalk 0
    have hascending := listed_ascending hreq hlimit hkeyed
    have hall := (listed_unchanged hreq hlimit hkeyed hsame).2
    rw [hpages] at hascending hall
    exact ⟨hascending, hall hended⟩

theorem listsReadable {answers : List ListBucketResultV2} {pages : List ListObjectsPage} (hsteady : Steady env w .start .start)
    (hstocked : Stocked env w .start .start) (hcarry : Carry env encoding pages answers)
    (hascending : ((listed pages).map ListItem.name).Pairwise (· < ·)) (hall : ∀ item, item ∈ listed pages ↔ InListing w.db req item) :
    ListsReadable env w req encoding answers := by
  have hdb := hsteady.tidy.wellKeyed
  obtain ⟨-, hcontents, hprefixes⟩ := hcarry
  refine ⟨⟨((listed pages).filterMap ListItem.manifest).map (·.key.key), ?_, fun key => ?_, ?_⟩,
    ⟨(listed pages).filterMap ListItem.rolledUp, ?_, fun p => ?_, hprefixes⟩⟩
  · refine ascending_some hascending ListItem.manifest (·.key.key) fun item m hm => ?_
    cases item with
    | object m' =>
      cases hm
      rfl
    | commonPrefix p => cases hm
  · rw [List.mem_map, readable_iff hsteady hstocked]
    constructor
    · intro hkey
      obtain ⟨m, hm, rfl⟩ := hkey
      cases (hall _).mp (mem_manifests.mp hm) with
      | object hcur hpre hcp => exact ⟨hpre, hcp, m, hcur⟩
    · intro hkey
      obtain ⟨hpre, hcp, m, hcur⟩ := hkey
      obtain ⟨rfl, -⟩ := hcur.key_eq hdb
      exact ⟨m, mem_manifests.mpr ((hall _).mpr (.object hcur hpre hcp)), rfl⟩
  · rw [hcontents, List.forall₂_map_left_iff, List.forall₂_map_right_iff, List.forall₂_same]
    intro m hm
    cases (hall _).mp (mem_manifests.mp hm) with
    | object hcur => exact readAs_current hsteady hstocked hcur
  · have hnames := ascending_some hascending ListItem.rolledUp (fun p => p) fun item p hp => by
      cases item with
      | object m => cases hp
      | commonPrefix p' =>
        cases hp
        rfl
    rwa [List.map_id'] at hnames
  · rw [mem_rolledUp, hall]
    simp only [readable_iff hsteady hstocked]
    constructor
    · intro hp
      cases hp with
      | commonPrefix hcur hpre hcp => exact ⟨_, hpre, hcp, _, hcur⟩
    · intro hp
      obtain ⟨key, hpre, hcp, m, hcur⟩ := hp
      exact .commonPrefix hcur hpre hcp

/-- Every request of a walk is answered with a page, the walk ends, and it has listed what a
    GET finds. -/
theorem listed_iff_read (henv : env.Sane) {w0 : World} (hw : Sequential env (Ranged env) w0) (hreq : req.Valid)
    (hlimit : 0 < req.limit) (hb : (w0.db.buckets.get req.bucket).isSome = true)
    (hcodec : ∀ d, req.Meets (some d) → env.decodeContinuationToken (env.encodeContinuationToken d) = .ok d)
    {answers : List ListBucketResultV2} {next : Option (Option Str)} (h : Browsing env req encoding w0 answers next w) :
    (∀ token, next = some token → answers.length ≤ w0.db.objects.rows.length ∧
      ∀ query, AsksV2 (parseQuery query) req encoding token →
        ∃ a w', run env (listObjects env req.bucket query) w = (.ok (.ofXml (.listBucketV2 a)), w')) ∧
      (next = none → ListsReadable env w0 req encoding answers) := by
  obtain ⟨hsteady, hstocked⟩ := sequential_stocked henv hw
  have hdb := hsteady.tidy.wellKeyed
  have htagged := tagged_of_stocked hsteady hstocked
  obtain ⟨hworld, pages, hcarry, hon⟩ := h.follows hdb hreq hlimit htagged hb hcodec
  refine ⟨fun token hnext => ?_, fun hnext => ?_⟩
  · subst hnext
    refine ⟨hcarry.1 ▸ hon.short hdb hreq hlimit, fun query hasks => ?_⟩
    cases hon with
    | going c hc _ _ =>
      exact ⟨_, _, run_listObjects (hworld ▸ hb) hasks rfl (fun d hd => hcodec d (hd ▸ hc))
        fun m hm => page_tagged htagged hdb hreq hc (hworld ▸ hm)⟩
  · subst hnext
    obtain ⟨hascending, hall⟩ := hon.complete hdb hreq hlimit
    exact listsReadable hsteady hstocked hcarry hascending hall

end

/-- Two objects, listed on a page each. -/
def twoObjectsServed : World := served sampleEnv .empty
  [.createBucket (str "bucket") [], .putObject (str "bucket") (str "k") [] (str "b"), .putObject (str "bucket") (str "j") [] (str "a")]

def onePerPage : ListObjectsRequest := ⟨str "bucket", [], none, none, 1⟩

theorem listed_iff_read_two_pages : ∃ answers w, answers.length = 2 ∧ Browsing sampleEnv onePerPage none twoObjectsServed answers none w ∧
    ListsReadable sampleEnv twoObjectsServed onePerPage none answers := by
  have hw : Sequential sampleEnv (Ranged sampleEnv) twoObjectsServed :=
    sequential_served (fun _ _ hcheck => ranged_of_check hcheck) .empty (by rfl)
  have hfirst : AsksV2 (parseQuery (str "list-type=2&max-keys=1")) onePerPage none none :=
    ⟨by rfl, by rfl, by rfl, by rfl, by rfl, by rfl, fun _ => by rfl⟩
  have hsecond : AsksV2 (parseQuery (str "list-type=2&max-keys=1&continuation-token=j")) onePerPage none (some (str "j")) :=
    ⟨by rfl, by rfl, by rfl, by rfl, by rfl, by rfl, fun h => by cases h⟩
  obtain ⟨a, w, b, w', ha, hnext, hb, hlast⟩ : ∃ a w b w',
      run sampleEnv (listObjects sampleEnv onePerPage.bucket (str "list-type=2&max-keys=1")) twoObjectsServed =
        (.ok (.ofXml (.listBucketV2 a)), w) ∧ a.nextContinuationToken = some (str "j") ∧
          run sampleEnv (listObjects sampleEnv onePerPage.bucket (str "list-type=2&max-keys=1&continuation-token=j")) w =
            (.ok (.ofXml (.listBucketV2 b)), w') ∧ b.nextContinuationToken = none := ⟨_, _, _, _, rfl, rfl, rfl, rfl⟩
  have hfirstPage := Browsing.page .start hfirst ha
  rw [hnext] at hfirstPage
  have hpages := Browsing.page hfirstPage hsecond hb
  rw [hlast] at hpages
  have hcodec : ∀ d, onePerPage.Meets (some d) → sampleEnv.decodeContinuationToken (sampleEnv.encodeContinuationToken d) = .ok d := by
    intro d hd
    cases hd with
    | afterKey => rfl
    | afterPrefix _ _ hcp => cases hcp
  exact ⟨_, w', rfl, hpages,
    (listed_iff_read sampleEnv_sane hw ⟨by decide, fun d hd => by cases hd⟩ (by decide) rfl hcodec hpages).2 rfl⟩

end S3lite
