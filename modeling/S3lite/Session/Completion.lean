/-
  S3lite.Session.Completion — the completion of an upload, and the object it leaves.

  - `Picks`: what a completion may list. `Gathered.completes_iff`: it succeeds exactly then.
  - `Assembled`: the object made of the listed parts is the key's, with its files.
  - `Gathered.completed`, `Assembled.kept`: the completion makes it, and a request that does not rewrite
    the key leaves it.
  - `Assembled.sends`: a GET sends the listed parts' bytes, one after the other.
-/
import S3lite.Session.Uploads
import S3lite.Listing.Client

namespace S3lite

open Handler

/-! ## What a completion lists -/

/-- The list names parts of the upload by ascending number, each with the ETag of its bytes. -/
structure Picks (env : Env) (u : Nat → Option Bytes) (request : List (Nat × Str)) : Prop where
  nonempty : request ≠ []
  ascending : request.Pairwise fun a b => a.1 < b.1
  parts : ∀ r ∈ request, ∃ c, u r.1 = some c ∧ trim r.2 = etagOfMd5 (env.md5 c)

/-- The bytes that the list names, one after the other. -/
def picked (u : Nat → Option Bytes) (request : List (Nat × Str)) : List Bytes := request.map fun r => (u r.1).getD []

/-- As parts. -/
def pickedParts (env : Env) (u : Nat → Option Bytes) (request : List (Nat × Str)) : List PartRef :=
  request.map fun r => partOf env r.1 ((u r.1).getD [])

section
variable {env : Env} {w w' : World} {m : Manifest} {u : Nat → Option Bytes} {upload : ManifestKey} {request : List (Nat × Str)}

theorem partsSorted_iff {n : Nat} :
    partsSorted n request = true ↔ (∀ r ∈ request, n < r.1) ∧ request.Pairwise fun a b => a.1 < b.1 := by
  constructor
  · intro h
    obtain ⟨hlater, hascending⟩ := partsSorted_ascending h
    exact ⟨hlater, List.pairwise_map.mp hascending⟩
  · intro h
    obtain ⟨hlater, hascending⟩ := h
    induction request generalizing n with
    | nil => rfl
    | cons req request ih =>
      obtain ⟨hfirst, hrest⟩ := List.pairwise_cons.mp hascending
      simp only [partsSorted, Bool.and_eq_true, decide_eq_true_eq]
      exact ⟨hlater req (List.mem_cons_self ..), ih hfirst hrest⟩

theorem Manifest.Gathers.selects_iff (h : m.Gathers env u) (bucket key : Str) {selected : List PartRef} :
    selectParts bucket key m.parts request = .ok selected ↔
      (∀ r ∈ request, ∃ c, u r.1 = some c ∧ trim r.2 = etagOfMd5 (env.md5 c)) ∧ selected = pickedParts env u request := by
  induction request generalizing selected with
  | nil =>
    constructor
    · intro hs
      cases hs
      exact ⟨fun r hr => absurd hr List.not_mem_nil, rfl⟩
    · intro hs
      rw [hs.2]
      rfl
  | cons req request ih =>
    have hfind := h.find req.1
    cases hu : u req.1 with
    | none =>
      rw [hu, Option.map_none] at hfind
      simp only [selectParts, hfind]
      refine iff_of_false (fun hs => by cases hs) fun hs => ?_
      obtain ⟨c, hc, -⟩ := hs.1 req (List.mem_cons_self ..)
      rw [hu] at hc
      cases hc
    | some c =>
      rw [hu, Option.map_some] at hfind
      simp only [selectParts, hfind]
      have hparts : pickedParts env u (req :: request) = partOf env req.1 c :: pickedParts env u request := by
        unfold pickedParts
        rw [List.map_cons, hu]
        rfl
      rw [hparts]
      by_cases htag : trim req.2 = etagOfMd5 (partOf env req.1 c).md5
      · rw [if_pos htag]
        cases hrest : selectParts bucket key m.parts request with
        | error e =>
          refine iff_of_false (fun hs => by cases hs) fun hs => ?_
          have hpicks := (@ih (pickedParts env u request)).mpr ⟨fun r hr => hs.1 r (List.mem_cons_of_mem _ hr), rfl⟩
          rw [hrest] at hpicks
          cases hpicks
        | ok ps =>
          obtain ⟨hall, rfl⟩ := ih.mp hrest
          constructor
          · intro hs
            cases hs
            refine ⟨fun r hr => ?_, rfl⟩
            rcases List.mem_cons.mp hr with rfl | hr
            · exact ⟨c, hu, htag⟩
            · exact hall r hr
          · intro hs
            rw [hs.2]
            rfl
      · rw [if_neg htag]
        refine iff_of_false (fun hs => by cases hs) fun hs => ?_
        obtain ⟨c', hc', htag'⟩ := hs.1 req (List.mem_cons_self ..)
        rw [hu] at hc'
        cases hc'
        exact htag htag'

/-- Whatever is listed is a part of the row. -/
theorem Manifest.Gathers.subset (h : m.Gathers env u) (hpicks : Picks env u request) : ∀ p ∈ pickedParts env u request, p ∈ m.parts :=
  selectParts_subset ((h.selects_iff [] []).mpr ⟨hpicks.parts, rfl⟩)

/-- The upload can be completed exactly with a list that picks parts of it. -/
theorem Gathered.completable_iff (h : Gathered env w upload u) {g : Ghost} {gr : Ground} (hsteady : Steady env w g gr)
    (hsizes : ∀ r ∈ w.db.objects.rows, (r.2.parts.map (·.size)).sum < 2 ^ 64) {body : Bytes} {up : Manifest} {selected : List PartRef} :
    Completable env w.db upload.bucket upload.key upload.versionId body up selected ↔
      w.db.objects.get upload.encode = some up ∧ ∃ request, env.xmlCompleteMultipartUpload body = .ok request ∧ Picks env u request ∧
        selected = pickedParts env u request := by
  obtain ⟨m, hm, hgathers⟩ := h.row
  constructor
  · intro hc
    obtain ⟨request, hrequest, hne, hsorted, hselected⟩ := hc.request
    have hup : w.db.objects.get upload.encode = some up := hc.row
    rw [hm] at hup
    cases hup
    obtain ⟨hparts, rfl⟩ := (hgathers.selects_iff _ _).mp hselected
    exact ⟨hm, request, hrequest, ⟨hne, (partsSorted_iff.mp hsorted).2, hparts⟩, rfl⟩
  · intro hc
    obtain ⟨hup, request, hrequest, hpicks, rfl⟩ := hc
    rw [hm] at hup
    cases hup
    have hmem := Table.mem_rows.mpr hm
    have hsorted : partsSorted 0 request = true := by
      refine partsSorted_iff.mpr ⟨fun r hr => ?_, hpicks.ascending⟩
      obtain ⟨c, hc, -⟩ := hpicks.parts r hr
      exact h.numbers _ c hc
    have hselected := (hgathers.selects_iff upload.bucket upload.key).mpr ⟨hpicks.parts, rfl⟩
    refine ⟨hm, hgathers.inProgress, ⟨request, hrequest, hpicks.nonempty, hsorted, hselected⟩, fun hsize => ?_, fun p hp hmarked => ?_⟩
    · have hle := selected_sum_le hsorted hselected
      have hbound : (up.parts.map (·.size)).sum < 2 ^ 64 := hsizes _ hmem
      have hlarge := hsize.2
      omega
    · obtain ⟨e, he, hlive⟩ := hsteady.live_row hmem (hgathers.subset hpicks p hp)
      obtain ⟨e', he', hgc⟩ := hmarked
      rw [he] at he'
      cases he'
      rw [hlive] at hgc
      cases hgc

theorem Gathered.completes_iff (h : Gathered env w upload u) {g : Ghost} {gr : Ground} (hsteady : Steady env w g gr)
    (hsizes : ∀ r ∈ w.db.objects.rows, (r.2.parts.map (·.size)).sum < 2 ^ 64) {body : Bytes} :
    Vault.Succeeds (run env (completeMultipartUpload env upload.bucket upload.key upload.versionId body) w).1 ↔
      ∃ request, env.xmlCompleteMultipartUpload body = .ok request ∧ Picks env u request := by
  refine succeeds_iff (r := .completeMultipartUpload upload.bucket upload.key upload.versionId body)
    (ensures_completeMultipartUpload upload.bucket upload.key upload.versionId body) (fun _ _ hok => ?_) fun _ _ hrefused hcan => ?_
  · obtain ⟨up, selected, n, w1, hc, -⟩ := hok
    obtain ⟨-, request, hrequest, hpicks, -⟩ := (h.completable_iff hsteady hsizes).mp hc
    exact ⟨request, hrequest, hpicks⟩
  · obtain ⟨request, hrequest, hpicks⟩ := hcan
    obtain ⟨m, hm, -⟩ := h.row
    exact hrefused.2.2 _ _ ((h.completable_iff hsteady hsizes).mpr ⟨hm, request, hrequest, hpicks, rfl⟩)

/-! ## The object -/

/-- The key's "null" version is the object of the listed parts, and their files are there. Where the
    clock always moves on, no version of the key is newer. -/
structure Assembled (env : Env) (w : World) (bucket key : Str) (u : Nat → Option Bytes) (request : List (Nat × Str)) : Prop where
  row : ∃ m, w.db.objects.get (ManifestKey.mk bucket key nullVersionId).encode = some m ∧ m.state = .committed ∧ m.kind = .object ∧
    m.uploadMode = .multipart ∧ m.parts = pickedParts env u request ∧ m.size = ((pickedParts env u request).map (·.size)).sum ∧
      (StrictMono env.now → ∀ x ∈ versionsOf w.db bucket key, x.key.versionId ≠ nullVersionId → x.lastModified < m.lastModified)
  bounded : ((pickedParts env u request).map (·.size)).sum < 2 ^ 64
  files : ∀ r ∈ request, w.files.get (env.blake3 ((u r.1).getD [])) = some ((u r.1).getD [])

/-- The completion makes it. -/
theorem Gathered.completed (henv : env.Sane) (h : Gathered env w upload u) (hcalm : Calm env w) (hcalm' : Calm env w') (hclear : upload.NulFree)
    {body : Bytes} (hrequest : env.xmlCompleteMultipartUpload body = .ok request) {resp : Response}
    (hrun : run env (completeMultipartUpload env upload.bucket upload.key upload.versionId body) w = (.ok resp, w')) :
    Assembled env w' upload.bucket upload.key u request := by
  obtain ⟨up, selected, n, w1, hc, h1, hread, hn, hcommits⟩ :=
    (ensures_completeMultipartUpload upload.bucket upload.key upload.versionId body).ok hrun
  obtain ⟨hup, request', hrequest', hpicks, rfl⟩ := (h.completable_iff (hcalm.steady henv) (hcalm.bounded henv)).mp hc
  rw [hrequest] at hrequest'
  cases hrequest'
  have hmakes : (Change.commit upload (completedManifest upload.bucket upload.key up (pickedParts env u request) (env.now n))).Makes env w1 w' :=
    hcommits
  have hobjects := (Commits.objects hcommits).1
  obtain ⟨m, hm, hgathers⟩ := h.row
  have htidy := (hcalm.steady henv).tidy
  have hid : upload.versionId ≠ nullVersionId := by
    have hnull := ((htidy.row hm).2.upload hgathers.inProgress).1
    rw [htidy.wellKeyed.key_of_get hm] at hnull
    exact hnull
  have hnullClear : (ManifestKey.mk upload.bucket upload.key nullVersionId).NulFree := ⟨hclear.bucket, hclear.key, null_clear⟩
  have hne : (ManifestKey.mk upload.bucket upload.key nullVersionId).encode ≠ upload.encode := by
    intro he
    exact hid (congrArg ManifestKey.versionId (eq_of_encode hclear he)).symm
  have hrow : w'.db.objects.get (ManifestKey.mk upload.bucket upload.key nullVersionId).encode =
      some (completedManifest upload.bucket upload.key up (pickedParts env u request) (env.now n)) := by
    rw [hobjects, Table.get_erase_ne _ hne]
    exact Table.get_insert_self ..
  have hbound := hcalm'.bounded henv _ (Table.mem_rows.mpr hrow)
  refine ⟨⟨_, hrow, rfl, rfl, rfl, rfl, sizeSum_eq hbound, fun hclock x hx hxid => ?_⟩, hbound, fun r hr => ?_⟩
  · -- every other version was there before
    obtain ⟨⟨slot, hslot⟩, -⟩ := mem_versionsOf.mp hx
    rw [hobjects] at hslot
    have hslot := (Table.mem_erase.mp hslot).1
    rcases Table.mem_insert.mp hslot with he | ⟨hslot, -⟩
    · cases he
      exact absurd rfl hxid
    · rw [h1.db] at hslot
      obtain ⟨k, hk, htime⟩ := hcalm.timed slot x (Table.mem_rows.mp hslot)
      rw [htime]
      exact hclock (lt_of_lt_of_le hk hread)
  · obtain ⟨c, hc', -⟩ := hpicks.parts r hr
    have hpart : partOf env r.1 c ∈ pickedParts env u request := by
      refine List.mem_map.mpr ⟨r, hr, ?_⟩
      rw [hc']
      rfl
    obtain ⟨e, he, -⟩ := (hcalm'.steady henv).live_row (Table.mem_rows.mpr hrow) hpart
    have hleft : w'.db.parts.get (partOf env r.1 c).hash ≠ none := by
      rw [he]
      exact Option.some_ne_none e
    have hfile : w'.files.get (env.blake3 c) = w1.files.get (env.blake3 c) := hmakes.file hleft
    rw [hc', Option.getD_some, hfile, h1.files]
    exact h.files r.1 c hc'

variable {bucket key : Str} {r : Request} {answer : Except Failure Response}

theorem Touches.committed_row {db : Db} {id : Str} {after : Option Manifest} (hr : ¬ r.Rewrites db bucket key)
    (ht : Touches r ⟨bucket, key, id⟩ (db.objects.get (ManifestKey.mk bucket key id).encode) after) {x : Manifest} (hx : x.state = .committed) :
    (∃ m, after = some m ∧ m.content = x.content) ↔
      ∃ m, db.objects.get (ManifestKey.mk bucket key id).encode = some m ∧ m.content = x.content := by
  have hstate : x.content.state = .committed := hx
  have hiff : ∀ o : Option Manifest, (∃ m, o = some m ∧ m.content = x.content) ↔
      (o.map Manifest.content).filter (fun m => m.state = .committed) = some x.content := by
    intro o
    rw [Option.filter_eq_some_iff, Option.map_eq_some_iff, decide_eq_true_eq, hstate]
    exact ⟨fun h => ⟨h, rfl⟩, fun h => h.1⟩
  rw [hiff, hiff, ht.committed hr]

/-- A request that does not rewrite the key leaves it. -/
theorem Assembled.kept (h : Assembled env w bucket key u request) (hd : Does env w r answer w') (hr : ¬ r.Rewrites w.db bucket key)
    (hdb : WellKeyed w'.db) (hb : NulFree bucket) (hk : NulFree key) {g : Ghost} {gr : Ground} (hsteady : Steady env w' g gr) :
    Assembled env w' bucket key u request := by
  obtain ⟨m, hm, hstate, hkind, hmode, hparts, hsize, hnewest⟩ := h.row
  have hclear : (ManifestKey.mk bucket key nullVersionId).NulFree := ⟨hb, hk, null_clear⟩
  have htouches := hd.touches hclear
  obtain ⟨m', hm', hcontent⟩ := (htouches.committed_row hr hstate).mpr ⟨m, hm, rfl⟩
  have hsame : ∀ {β : Type} (f : Manifest → β), (∀ x, f x.content = f x) → f m' = f m := by
    intro β f hf
    rw [← hf m', hcontent, hf]
  have hparts' : m'.parts = pickedParts env u request := (hsame (·.parts) fun _ => rfl).trans hparts
  refine ⟨⟨m', hm', (hsame (·.state) fun _ => rfl).trans hstate, (hsame (·.kind) fun _ => rfl).trans hkind,
    (hsame (·.uploadMode) fun _ => rfl).trans hmode, hparts', (hsame (·.size) fun _ => rfl).trans hsize, fun hclock x hx hxid => ?_⟩,
    h.bounded, fun r hr => ?_⟩
  · obtain ⟨⟨slot, hslot⟩, hxstate, hxb, hxk⟩ := mem_versionsOf.mp hx
    obtain ⟨hxslot, hxclear⟩ := hdb _ hslot
    have hxkey : ManifestKey.mk bucket key x.key.versionId = x.key := by
      subst hxb hxk
      rfl
    have hget : w'.db.objects.get (ManifestKey.mk bucket key x.key.versionId).encode = some x := by
      rw [hxkey, ← hxslot]
      exact Table.get_of_mem hslot
    rw [← hxkey] at hxclear
    have htouches := hd.touches hxclear
    obtain ⟨x0, hx0, hx0content⟩ := (htouches.committed_row hr hxstate).mp ⟨x, hget, rfl⟩
    have hold : ∀ {β : Type} (f : Manifest → β), (∀ x, f x.content = f x) → f x0 = f x := by
      intro β f hf
      rw [← hf x0, hx0content, hf]
    have hkey0 : x0.key = x.key := hold (·.key) fun _ => rfl
    have hmem : x0 ∈ versionsOf w.db bucket key := by
      refine mem_versionsOf.mpr ⟨⟨_, Table.mem_rows.mpr hx0⟩, (hold (·.state) fun _ => rfl).trans hxstate, ?_, ?_⟩
      · rw [hkey0, hxb]
      · rw [hkey0, hxk]
    have hless := hnewest hclock x0 hmem (by rw [hkey0]; exact hxid)
    rw [← hold (·.lastModified) fun _ => rfl, hsame (·.lastModified) fun _ => rfl]
    exact hless
  · have hpart : partOf env r.1 ((u r.1).getD []) ∈ m'.parts := by
      rw [hparts']
      exact List.mem_map_of_mem hr
    obtain ⟨e, he, -⟩ := hsteady.live_row (Table.mem_rows.mpr hm') hpart
    refine hd.file ?_ (h.files r hr)
    show w'.db.parts.get (partOf env r.1 ((u r.1).getD [])).hash ≠ none
    rw [he]
    exact Option.some_ne_none e

/-- The ETag of an object made of parts: of their MD5s, and how many they are. -/
def multipartEtag (env : Env) (pieces : List Bytes) : Str :=
  quote (hexEncode (env.md5 (pieces.flatMap fun c => (env.md5 c).toList)).toList ++ str "-" ++ natStr pieces.length)

/-- A GET of the object sends its parts' bytes, one after the other. -/
theorem Assembled.sends (h : Assembled env w bucket key u request) {g : Ghost} {gr : Ground} (hsteady : Steady env w g gr) {versionId : Option Str}
    (hversion : versionId = some nullVersionId ∨ versionId = none ∧ StrictMono env.now) {headers : HeaderMap} (hc : NoConditions headers)
    (hrange : headers.get (str "range") = none) :
    ∃ resp, (run env (getOrHeadObject env bucket key versionId headers false) w).1 = .ok resp ∧
      SendsWhole (picked u request).flatten resp ∧ resp.headers.get (str "etag") = some (multipartEtag env (picked u request)) := by
  obtain ⟨m, hm, hstate, hkind, hmode, hparts, hsize, hnewest⟩ := h.row
  have hdb := hsteady.tidy.wellKeyed
  have hfound : foundVersion w.db bucket key versionId = some m := by
    rcases hversion with rfl | ⟨rfl, hclock⟩
    · exact hm
    · have hkey := hdb.key_of_get hm
      have hmem : m ∈ versionsOf w.db bucket key := by
        refine mem_versionsOf.mpr ⟨⟨_, Table.mem_rows.mpr hm⟩, hstate, ?_, ?_⟩
        · rw [hkey]
        · rw [hkey]
      refine (get_latest_eq hdb bucket key).trans (foldl_takeLatest_newest hmem fun x hx hne => hnewest hclock x hx fun hid => hne ?_)
      obtain ⟨⟨slot, hslot⟩, -, hxb, hxk⟩ := mem_versionsOf.mp hx
      have hxkey : x.key = ⟨bucket, key, nullVersionId⟩ := by
        subst hxb hxk
        rw [← hid]
      have hget := Table.get_of_mem hslot
      rw [(hdb _ hslot).1, hxkey, hm] at hget
      exact (Option.some.inj hget).symm
  have hfile : ∀ p ∈ m.parts, ∃ r ∈ request, p = partOf env r.1 ((u r.1).getD []) ∧ w.files.get p.hash = some ((u r.1).getD []) := by
    intro p hp
    rw [hparts] at hp
    obtain ⟨r, hr, rfl⟩ := List.mem_map.mp hp
    exact ⟨r, hr, rfl, h.files r hr⟩
  have hintact : Intact w m := by
    refine ⟨fun p hp => ?_, by rw [hsize, hparts], by rw [hsize]; exact h.bounded⟩
    obtain ⟨r, -, rfl, hdata⟩ := hfile p hp
    exact ⟨_, hdata, rfl⟩
  have hbytes : objectBytes w m = (picked u request).flatten := by
    unfold objectBytes
    rw [partBytes_eq, hparts, pickedParts, picked, List.map_map]
    congr 1
    refine List.map_congr_left fun r hr => ?_
    show (w.files.get (env.blake3 ((u r.1).getD []))).getD [] = _
    rw [h.files r hr, Option.getD_some]
  have hetag : m.etag env.md5 env.debug = some (multipartEtag env (picked u request)) := by
    have hdigests : m.parts.flatMap (fun part => part.md5.toList) = (picked u request).flatMap fun c => (env.md5 c).toList := by
      rw [hparts, pickedParts, picked, List.flatMap_map, List.flatMap_map]
      rfl
    have hlength : m.parts.length = (picked u request).length := by
      rw [hparts, pickedParts, picked, List.length_map, List.length_map]
    unfold Manifest.etag
    rw [hmode]
    simp only [hdigests, hlength]
    rfl
  obtain ⟨-, hbucket⟩ := hsteady.bucket_of_found hfound
  have hget := ensures_getObject hbucket hfound hstate hkind hetag hintact hc
  have hnone : parseRangeHeader headers m.size = .ok none := by
    unfold parseRangeHeader
    rw [hrange]
  obtain ⟨answer, w', hrun⟩ : ∃ answer w', run env (getOrHeadObject env bucket key versionId headers false) w = (answer, w') := ⟨_, _, rfl⟩
  rw [hrun]
  cases answer with
  | error e =>
    obtain ⟨e', -, he⟩ := hget.error hrun
    rw [hnone] at he
    cases he
  | ok resp =>
    obtain ⟨range, hrange, rfl⟩ := hget.ok hrun
    rw [hnone] at hrange
    cases hrange
    refine ⟨_, rfl, ?_, etag_sent hetag _⟩
    rw [← hbytes]
    exact sendsWhole hintact

end

end S3lite
