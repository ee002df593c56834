/-
  S3lite.Listing.Reference — the reference listing, and what one page lists of it.

  The reference listing (`InListing`) of a database: the keys with the prefix whose latest
  committed version is an object, each as itself or, when the delimiter occurs after the
  prefix, as the common prefix up to its first occurrence (`rollUp`).
  - `scan_mem` / `latestByKey_get`: from a walk's cursor, the scan collects exactly the
    current versions of the keys past the cursor.
  - `rollAll_mem` / `rollAll_ascending`: the loop over them lists each key's item once, in
    strictly ascending order of the names.
  - `handleListObjects_eq`: a page is the first `limit` items of that list, truncated when
    there are more.
  - `page_isPage`: so it is a page of the reference listing from the cursor.
-/
import S3lite.Base.Pages
import S3lite.Base.RollUp
import S3lite.Storage.Rows

namespace S3lite

/-! ## Rolling keys up -/

theorem findStr_nil (s : Str) : findStr [] s = some 0 := by
  cases s <;> rfl

/-- Where the pattern is found it occurs. -/
theorem findStr_occurs {pat s : Str} {pos : Nat} (h : findStr pat s = some pos) :
    pat <+: s.drop pos ∧ pos + pat.length ≤ s.length := by
  induction s generalizing pos with
  | nil =>
    simp only [findStr] at h
    split at h <;> cases h
    rename_i he
    simp [he]
  | cons c s ih =>
    simp only [findStr] at h
    split at h
    · cases h
      rename_i hp
      exact ⟨hp, by simpa using hp.length_le⟩
    · obtain ⟨q, hq, rfl⟩ := Option.map_eq_some_iff.mp h
      obtain ⟨h1, h2⟩ := ih hq
      refine ⟨h1, ?_⟩
      rw [List.length_cons]
      omega

/-- The first occurrence is decided by the string up to its end. -/
theorem findStr_stable {pat s s' : Str} {pos : Nat} (h : findStr pat s = some pos)
    (hs : s.take (pos + pat.length) <+: s') : findStr pat s' = some pos := by
  induction s generalizing pos s' with
  | nil =>
    simp only [findStr] at h
    split at h <;> cases h
    rename_i he
    rw [he, findStr_nil]
  | cons c s ih =>
    simp only [findStr] at h
    split at h
    · cases h
      rename_i hp
      have hpat : pat <+: s' := by
        have : (c :: s).take (0 + pat.length) = pat := by rw [Nat.zero_add]; exact (List.prefix_iff_eq_take.mp hp).symm
        rwa [this] at hs
      cases s' with
      | nil => rw [List.prefix_nil.mp hpat, findStr_nil]
      | cons d s' => simp [findStr, hpat]
    · rename_i hp
      obtain ⟨q, hq, rfl⟩ := Option.map_eq_some_iff.mp h
      have hlen : (c :: s).take (q + 1 + pat.length) = c :: s.take (q + pat.length) := by
        rw [show q + 1 + pat.length = (q + pat.length) + 1 by omega, List.take_succ_cons]
      rw [hlen] at hs
      cases s' with
      | nil => exact absurd (List.prefix_nil.mp hs) (by simp)
      | cons d s' =>
        obtain ⟨rfl, hs'⟩ := List.cons_prefix_cons.mp hs
        have hp' : ¬ pat <+: c :: s' := by
          intro hpat
          -- the pattern is no longer than the common part, so it would occur in `c :: s` too
          have hocc := (findStr_occurs hq).2
          have hpre : pat <+: c :: s.take (q + pat.length) := by
            refine List.prefix_of_prefix_length_le hpat hs ?_
            rw [List.length_cons, List.length_take]
            omega
          exact hp (hpre.trans (List.cons_prefix_cons.mpr ⟨rfl, List.take_prefix ..⟩))
        simp [findStr, hp', ih hq hs']

theorem commonPrefixOf_append (pre d t : Str) :
    commonPrefixOf pre (some d) (pre ++ t) = (findStr d t).map fun pos => pre ++ t.take (pos + d.length) := by
  simp only [commonPrefixOf, Option.bind_some, List.drop_left']
  congr 1
  funext pos
  rw [Nat.add_assoc, List.take_append, List.take_of_length_le (by omega), Nat.add_sub_cancel_left]

/-- The roll-up of the keys with the prefix. -/
def rollUp (pre : Str) (delimiter : Option Str) : RollUp UInt8 where
  block k := if pre <+: k then commonPrefixOf pre delimiter k else none
  block_pre := by
    intro k p h
    split at h
    · unfold commonPrefixOf at h
      obtain ⟨d, -, h⟩ := Option.bind_eq_some_iff.mp h
      obtain ⟨pos, -, rfl⟩ := Option.map_eq_some_iff.mp h
      exact List.take_prefix ..
    · cases h
  block_stable := by
    intro k p h k' hp
    split at h
    · rename_i hk
      obtain ⟨t, rfl⟩ := hk
      cases delimiter with
      | none => cases h
      | some d =>
        rw [commonPrefixOf_append] at h
        obtain ⟨pos, hpos, rfl⟩ := Option.map_eq_some_iff.mp h
        have hk' : pre <+: k' := (List.prefix_append pre _).trans hp
        obtain ⟨t', rfl⟩ := hk'
        have ht : t.take (pos + d.length) <+: t' := (List.prefix_append_right_inj pre).mp hp
        have hcut : t'.take (pos + d.length) = t.take (pos + d.length) := by
          have hlen : (t.take (pos + d.length)).length = pos + d.length := by
            have := (findStr_occurs hpos).2
            rw [List.length_take]
            omega
          have := List.prefix_iff_eq_take.mp ht
          rw [hlen] at this
          exact this.symm
        rw [if_pos (List.prefix_append pre t'), commonPrefixOf_append, findStr_stable hpos ht, Option.map_some, hcut]
    · cases h

theorem rollUp_block {pre k : Str} (delimiter : Option Str) (h : pre <+: k) :
    (rollUp pre delimiter).block k = commonPrefixOf pre delimiter k := if_pos h

/-! ## The reference listing -/

/-- What an item is listed under. -/
def ListItem.name : ListItem → Str
  | .object m => m.key.key
  | .commonPrefix p => p

/-- The current object of a key: its latest committed version, which is no delete marker. -/
def IsCurrent (db : Db) (bucket key : Str) (m : Manifest) : Prop :=
  handleGetLatestVersion db bucket key = some m ∧ m.kind = .object

/-- The items of the reference listing: the current objects whose key starts with the
    prefix, those with the delimiter after it rolled up to their common prefix. -/
inductive InListing (db : Db) (req : ListObjectsRequest) : ListItem → Prop
  | object {m : Manifest} : IsCurrent db req.bucket m.key.key m → req.pre <+: m.key.key →
      commonPrefixOf req.pre req.delimiter m.key.key = none → InListing db req (.object m)
  | commonPrefix {key : Str} {m : Manifest} {p : Str} : IsCurrent db req.bucket key m → req.pre <+: key →
      commonPrefixOf req.pre req.delimiter key = some p → InListing db req (.commonPrefix p)

/-- The names of the reference listing. -/
def listingNames (db : Db) (req : ListObjectsRequest) : Set Str := {n | ∃ item, InListing db req item ∧ item.name = n}

theorem IsCurrent.key_eq {db : Db} (hdb : WellKeyed db) {bucket key : Str} {m : Manifest}
    (h : IsCurrent db bucket key m) : m.key.key = key ∧ NulFree key := by
  obtain ⟨⟨k, hk⟩, -, -, hkey⟩ := mem_versionsOf.mp (get_latest_mem hdb h.1)
  exact ⟨hkey, hkey ▸ (hdb _ hk).2.key⟩

/-- What a request to list may ask: a bucket name without NUL and, when there is a
    delimiter, a non-empty string. -/
structure ListObjectsRequest.Valid (req : ListObjectsRequest) : Prop where
  bucket : NulFree req.bucket
  delimiter : ∀ d, req.delimiter = some d → d ≠ [] ∧ IsUtf8 d

/-! ## The scan -/

/-- The position of a cursor among the names. -/
def ListCursor.name : ListCursor → Str
  | .afterKey k => k
  | .afterPrefix p => p

def cursorName (c : Option ListCursor) : WithBot Str := c.map ListCursor.name

/-- The cursors a walk meets: none, or that of an item. -/
inductive ListObjectsRequest.Meets (req : ListObjectsRequest) : Option ListCursor → Prop
  | none : req.Meets none
  | afterKey {k : Str} : NulFree k → req.pre <+: k → commonPrefixOf req.pre req.delimiter k = none →
      req.Meets (some (.afterKey k))
  | afterPrefix {k p : Str} : NulFree k → req.pre <+: k → commonPrefixOf req.pre req.delimiter k = some p →
      req.Meets (some (.afterPrefix p))

/-- Where the scan starts inside the bucket. -/
def ListObjectsRequest.position (req : ListObjectsRequest) : Bytes :=
  match req.cursor with
  | none => req.pre
  | some (.afterKey k) => k ++ [1]
  | some (.afterPrefix p) => (bumpLast p).getD (p ++ [1])

theorem scanStart_eq (req : ListObjectsRequest) : req.scanStart = req.bucket ++ 0 :: req.position := by
  unfold ListObjectsRequest.scanStart ListObjectsRequest.position
  rcases req.cursor with _ | ⟨k⟩ | ⟨p⟩ <;> rfl

theorem bumpLast_append {c : UInt8} (hc : c < 0xff) (q : Bytes) : bumpLast (q ++ [c]) = some (q ++ [c + 1]) := by
  induction q with
  | nil => simp [bumpLast, hc]
  | cons d q ih => simp [bumpLast, ih]

theorem lt_iff_succ_le {c : UInt8} (hc : c < 0xff) (e : UInt8) : c < e ↔ c + 1 ≤ e := by
  simp only [UInt8.lt_iff_toNat_lt, UInt8.le_iff_toNat_le, UInt8.toNat_add, UInt8.toNat_one] at hc ⊢
  have : (255 : UInt8).toNat = 255 := rfl
  omega

/-- A common prefix is the prefix, something, and a last byte of the delimiter. -/
theorem commonPrefix_last {req : ListObjectsRequest} (hreq : req.Valid) {k p : Str} (hk : req.pre <+: k)
    (h : commonPrefixOf req.pre req.delimiter k = some p) : ∃ q c, p = q ++ [c] ∧ c < 0xff ∧ req.pre <+: q := by
  obtain ⟨t, rfl⟩ := hk
  cases hd : req.delimiter with
  | none => rw [hd] at h; cases h
  | some d =>
    obtain ⟨hne, hutf⟩ := hreq.delimiter d hd
    rw [hd, commonPrefixOf_append] at h
    obtain ⟨pos, hpos, rfl⟩ := Option.map_eq_some_iff.mp h
    obtain ⟨u, hu⟩ := (findStr_occurs hpos).1
    obtain ⟨d', c, rfl⟩ : ∃ d' c, d = d' ++ [c] := ⟨d.dropLast, d.getLast hne, (List.dropLast_append_getLast hne).symm⟩
    refine ⟨req.pre ++ (t.take pos ++ d'), c, ?_, hutf.lt_ff (by simp), List.prefix_append ..⟩
    have ht : t.take (pos + (d' ++ [c]).length) = t.take pos ++ (d' ++ [c]) := by
      rw [List.take_add, ← hu, List.take_left']
      rfl
    rw [ht]
    simp

/-- From a cursor a walk meets, the scan sees the keys with the prefix whose name is past
    the cursor. -/
theorem position_le_iff {req : ListObjectsRequest} (hreq : req.Valid) (hc : req.Meets req.cursor) {k v : Str}
    (hk : NulFree k) (hp : req.pre <+: k) :
    req.position ≤ k ++ 0 :: v ↔ Past (cursorName req.cursor) ((rollUp req.pre req.delimiter).name k) := by
  unfold ListObjectsRequest.position
  revert hc
  rcases req.cursor with _ | ⟨k0⟩ | ⟨p⟩ <;> intro hc
  · exact iff_of_true (Word.le_of_prefix (hp.trans (List.prefix_append k _))) (WithBot.bot_lt_coe _)
  · cases hc with
    | afterKey h0 h1 h2 =>
      have hb : (rollUp req.pre req.delimiter).block k0 = none := by rw [rollUp_block _ h1, h2]
      have : (rollUp req.pre req.delimiter).name k0 < (rollUp req.pre req.delimiter).name k ↔ k0 < k :=
        RollUp.past_name_iff_of_none _ hb
      rw [(rollUp req.pre req.delimiter).name_of_none hb] at this
      rw [Word.next_le_word_iff zero_lt_iff_one_le hk h0, ← this]
      exact WithBot.coe_lt_coe.symm
  · cases hc with
    | @afterPrefix k0 _ h0 h1 h2 =>
      have hb : (rollUp req.pre req.delimiter).block k0 = some p := by rw [rollUp_block _ h1, h2]
      have : (rollUp req.pre req.delimiter).name k0 < (rollUp req.pre req.delimiter).name k ↔ p < k ∧ ¬ p <+: k :=
        RollUp.past_name_iff_of_block _ hb
      rw [(rollUp req.pre req.delimiter).name_of_block hb] at this
      have hpk : p <+: k0 := (rollUp req.pre req.delimiter).block_pre k0 p hb
      obtain ⟨q, c, rfl, hff, -⟩ := commonPrefix_last hreq h1 h2
      have hclear : NulFree (q ++ [c]) := Word.Clear.of_prefix h0 hpk
      simp only [bumpLast_append hff, Option.getD_some]
      rw [Word.skip_le_word_iff (lt_iff_succ_le hff) (hclear c (by simp)) (fun d hd => hclear d (by simp [hd])), ← this]
      exact WithBot.coe_lt_coe.symm

/-- No scan starts before the prefix. -/
theorem pre_le_position {req : ListObjectsRequest} (hreq : req.Valid) (hc : req.Meets req.cursor) :
    req.pre ≤ req.position := by
  unfold ListObjectsRequest.position
  revert hc
  rcases req.cursor with _ | ⟨k0⟩ | ⟨p⟩ <;> intro hc
  · exact le_refl _
  · cases hc with
    | afterKey h0 h1 h2 => exact Word.le_of_prefix (h1.trans (List.prefix_append k0 _))
  · cases hc with
    | @afterPrefix k0 _ h0 h1 h2 =>
      obtain ⟨q, c, rfl, hff, hq⟩ := commonPrefix_last hreq h1 h2
      simp only [bumpLast_append hff, Option.getD_some]
      exact Word.le_of_prefix (hq.trans (List.prefix_append q _))

/-- Where the rows with the prefix come first, stopping at the first committed row without
    it loses none. -/
theorem scanCommitted_eq {pre : Str} {rows : List (Bytes × Manifest)}
    (h : rows.Pairwise fun a b => a.2.state = .committed → pre <+: b.2.key.key → pre <+: a.2.key.key) :
    scanCommitted pre rows = (rows.map (·.2)).filter fun m => m.state = .committed ∧ pre <+: m.key.key := by
  induction rows with
  | nil => rfl
  | cons r rows ih =>
    obtain ⟨hr, hrows⟩ := List.pairwise_cons.mp h
    simp only [scanCommitted, List.map_cons, List.filter_cons, ih hrows]
    by_cases hs : r.2.state = .committed
    · by_cases hp : pre <+: r.2.key.key
      · simp [hs, hp]
      · rw [if_neg (by simpa using hs), if_pos hp, if_neg (by simp [hp]), eq_comm, List.filter_eq_nil_iff]
        intro m hm
        obtain ⟨b, hb, rfl⟩ := List.mem_map.mp hm
        simp only [decide_eq_true_eq, not_and]
        exact fun _ hpb => hp (hr b hb hs hpb)
    · simp [hs]

section
variable {db : Db} {req : ListObjectsRequest}

theorem scan_eq (hdb : WellKeyed db) (hreq : req.Valid) (hc : req.Meets req.cursor) :
    req.scan db = ((db.objects.range req.scanStart (req.bucket ++ [1])).map (·.2)).filter fun m =>
      m.state = .committed ∧ req.pre <+: m.key.key := by
  refine scanCommitted_eq ((Table.range_sorted _ _ _).imp_of_mem ?_)
  intro a b ha hb hab _ hp
  obtain ⟨ha, ha'⟩ := Table.mem_range.mp ha
  obtain ⟨hb, hb'⟩ := Table.mem_range.mp hb
  obtain ⟨hak, han⟩ := hdb a ha
  obtain ⟨hbk, hbn⟩ := hdb b hb
  rw [scanStart_eq, hak] at ha'
  rw [scanStart_eq, hbk] at hb'
  obtain ⟨hab1, hab2⟩ := (mem_row_range han hreq.bucket).mp ha'
  obtain ⟨hbb1, -⟩ := (mem_row_range hbn hreq.bucket).mp hb'
  -- the row of `a` lies between the prefix and the row of `b`, which has the prefix
  have hle : a.2.key.key ++ 0 :: a.2.key.versionId ≤ b.2.key.key ++ 0 :: b.2.key.versionId := by
    rw [hak, hbk, ManifestKey.encode, ManifestKey.encode, Word.word_lt_word_iff han.bucket hbn.bucket] at hab
    rcases hab with h | ⟨-, h⟩
    · rw [hab1, hbb1] at h
      exact absurd h (lt_irrefl _)
    · exact h.le
  have hin := Word.prefix_of_between (List.prefix_refl req.pre) (hp.trans (List.prefix_append _ _))
    ((pre_le_position hreq hc).trans hab2) hle
  exact (Word.prefix_word_iff (Word.Clear.of_prefix hbn.key hp)).mp hin

/-- A row is in the scan's range when its key is past the cursor. -/
theorem scan_row (hreq : req.Valid) (hc : req.Meets req.cursor) {k : ManifestKey} (hk : k.NulFree)
    (hp : req.pre <+: k.key) : req.scanStart ≤ k.encode ∧ k.encode < req.bucket ++ [1] ↔
      k.bucket = req.bucket ∧ Past (cursorName req.cursor) ((rollUp req.pre req.delimiter).name k.key) := by
  rw [scanStart_eq, mem_row_range hk hreq.bucket, position_le_iff hreq hc hk.key hp]

theorem mem_scan (hdb : WellKeyed db) (hreq : req.Valid) (hc : req.Meets req.cursor) {m : Manifest} :
    m ∈ req.scan db ↔ m ∈ versionsOf db req.bucket m.key.key ∧ req.pre <+: m.key.key ∧
      Past (cursorName req.cursor) ((rollUp req.pre req.delimiter).name m.key.key) := by
  rw [scan_eq hdb hreq hc, List.mem_filter, List.mem_map, mem_versionsOf]
  simp only [decide_eq_true_eq]
  constructor
  · rintro ⟨⟨⟨k, _⟩, hr, rfl⟩, hs, hp⟩
    obtain ⟨hr, hrange⟩ := Table.mem_range.mp hr
    obtain ⟨hrow, hk⟩ := hdb _ hr
    rw [hrow] at hrange
    obtain ⟨hb, hpast⟩ := (scan_row hreq hc hk hp).mp hrange
    exact ⟨⟨⟨k, hr⟩, hs, hb, trivial⟩, hp, hpast⟩
  · rintro ⟨⟨⟨k, hr⟩, hs, hb, -⟩, hp, hpast⟩
    obtain ⟨hrow, hk⟩ := hdb _ hr
    refine ⟨⟨(k, m), Table.mem_range.mpr ⟨hr, ?_⟩, rfl⟩, hs, hp⟩
    rw [hrow]
    exact (scan_row hreq hc hk hp).mpr ⟨hb, hpast⟩

/-- Of a key past the cursor, the scan sees every version. -/
theorem scan_versions (hdb : WellKeyed db) (hreq : req.Valid) (hc : req.Meets req.cursor) {key : Str}
    (hp : req.pre <+: key) (hpast : Past (cursorName req.cursor) ((rollUp req.pre req.delimiter).name key)) :
    (req.scan db).filter (fun m => m.key.key = key) = versionsOf db req.bucket key := by
  rw [scan_eq hdb hreq hc]
  unfold versionsOf Table.range
  simp only [List.filter_map, List.filter_filter]
  congr 1
  refine List.filter_congr fun r hr => ?_
  obtain ⟨hrow, hk⟩ := hdb r hr
  by_cases hkey : r.2.key.key = key
  · subst hkey
    have := scan_row hreq hc hk hp
    simp only [Function.comp, decide_true, Bool.true_and, hrow, this, hp, hpast]
    by_cases hs : r.2.state = .committed <;> by_cases hb : r.2.key.bucket = req.bucket <;> simp [hs, hb]
  · simp [hkey]

end

/-! ## The latest version of each key -/

theorem noteLatest_get (t : Table Str Manifest) (m : Manifest) (key : Str) :
    (noteLatest t m).get key = if m.key.key = key then takeLatest (t.get key) m else t.get key := by
  unfold noteLatest takeLatest
  by_cases h : m.key.key = key
  · subst h
    rw [if_pos rfl]
    cases he : t.get m.key.key with
    | none => exact Table.get_insert_self ..
    | some e =>
      show (if e.lastModified < m.lastModified then t.insert m.key.key m else t).get m.key.key =
        if e.lastModified < m.lastModified then some m else some e
      by_cases hlt : e.lastModified < m.lastModified
      · rw [if_pos hlt, if_pos hlt, Table.get_insert_self]
      · rw [if_neg hlt, if_neg hlt, he]
  · rw [if_neg h]
    split
    · exact Table.get_insert_ne _ _ (Ne.symm h)
    · split
      · exact Table.get_insert_ne _ _ (Ne.symm h)
      · rfl

theorem foldl_noteLatest_get (ms : List Manifest) (t : Table Str Manifest) (key : Str) :
    (ms.foldl noteLatest t).get key = (ms.filter fun m => m.key.key = key).foldl takeLatest (t.get key) := by
  induction ms generalizing t with
  | nil => rfl
  | cons m ms ih =>
    rw [List.foldl_cons, ih, noteLatest_get, List.filter_cons]
    by_cases h : m.key.key = key <;> simp [h]

section
variable {db : Db} {req : ListObjectsRequest}

/-- The scan finds the latest version of every key with the prefix past the cursor. -/
theorem latestByKey_get (hdb : WellKeyed db) (hreq : req.Valid) (hc : req.Meets req.cursor) {key : Str} {m : Manifest} :
    ((req.scan db).foldl noteLatest .empty).get key = some m ↔ handleGetLatestVersion db req.bucket key = some m ∧
      req.pre <+: key ∧ Past (cursorName req.cursor) ((rollUp req.pre req.delimiter).name key) := by
  rw [foldl_noteLatest_get, Table.get_empty]
  constructor
  · intro h
    have hmem : m ∈ (req.scan db).filter fun m => m.key.key = key := by
      rcases foldl_takeLatest_mem h with h | h
      · exact h
      · cases h
    obtain ⟨hscan, hkey⟩ := List.mem_filter.mp hmem
    obtain rfl : m.key.key = key := by simpa using hkey
    obtain ⟨-, hp, hpast⟩ := (mem_scan hdb hreq hc).mp hscan
    rw [scan_versions hdb hreq hc hp hpast, ← get_latest_eq hdb] at h
    exact ⟨h, hp, hpast⟩
  · rintro ⟨h, hp, hpast⟩
    rw [scan_versions hdb hreq hc hp hpast, ← get_latest_eq hdb]
    exact h

end

/-! ## The loop over the keys -/

/-- The item of a key. -/
def rollItem (req : ListObjectsRequest) (r : Str × Manifest) : ListItem :=
  match commonPrefixOf req.pre req.delimiter r.1 with
  | some p => .commonPrefix p
  | none => .object r.2

/-- What the loop would list without a limit. -/
def rollAll (req : ListObjectsRequest) (skipPrefix : Option Str) : List (Str × Manifest) → List ListItem
  | [] => []
  | (key, m) :: rest =>
    if m.kind ≠ .object then rollAll req skipPrefix rest
    else if skipPrefix.any fun skip => decide (skip <+: key) then rollAll req skipPrefix rest
    else rollItem req (key, m) :: rollAll req (commonPrefixOf req.pre req.delimiter key) rest

/-- The page cut from a list of items. -/
def cutPage (limit : Nat) (items : List ListItem) : ListObjectsPage :=
  if items.length ≤ limit then ⟨items, false, none⟩
  else ⟨items.take limit, true, (items.take limit).getLast?.map ListItem.cursor⟩

theorem pageLoop_eq (req : ListObjectsRequest) {items : List ListItem} (hitems : items.length ≤ req.limit)
    (skipPrefix : Option Str) (l : List (Str × Manifest)) :
    pageLoop req items skipPrefix l = cutPage req.limit (items ++ rollAll req skipPrefix l) := by
  induction l generalizing items skipPrefix with
  | nil => simp [pageLoop, rollAll, cutPage, hitems]
  | cons r l ih =>
    obtain ⟨key, m⟩ := r
    simp only [pageLoop, rollAll]
    split
    · exact ih hitems skipPrefix
    · split
      · exact ih hitems skipPrefix
      · split
        · rename_i hfull
          have hlen : items.length = req.limit := le_antisymm hitems hfull
          have hcut : ¬ (items ++ rollItem req (key, m) :: rollAll req (commonPrefixOf req.pre req.delimiter key) l).length
              ≤ req.limit := by
            rw [List.length_append, List.length_cons]
            omega
          rw [cutPage, if_neg hcut, List.take_left' hlen]
        · rename_i hroom
          unfold rollItem
          cases hcp : commonPrefixOf req.pre req.delimiter key with
          | none =>
            simp only
            rw [ih (by rw [List.length_append, List.length_singleton]; omega), List.append_assoc]
            rfl
          | some p =>
            simp only
            rw [ih (by rw [List.length_append, List.length_singleton]; omega), List.append_assoc]
            rfl

section
variable {req : ListObjectsRequest} {l : List (Str × Manifest)}

/-- Rows the loop walks: ascending keys, each with the prefix and its own manifest. -/
structure LoopRows (req : ListObjectsRequest) (l : List (Str × Manifest)) : Prop where
  sorted : l.Pairwise fun a b => a.1 < b.1
  own : ∀ r ∈ l, r.2.key.key = r.1
  pre : ∀ r ∈ l, req.pre <+: r.1

theorem LoopRows.tail {r : Str × Manifest} (h : LoopRows req (r :: l)) : LoopRows req l where
  sorted := (List.pairwise_cons.mp h.sorted).2
  own := fun x hx => h.own x (List.mem_cons_of_mem _ hx)
  pre := fun x hx => h.pre x (List.mem_cons_of_mem _ hx)

theorem rollItem_name {r : Str × Manifest} (h : r.2.key.key = r.1) (hp : req.pre <+: r.1) :
    (rollItem req r).name = (rollUp req.pre req.delimiter).name r.1 := by
  have hb := rollUp_block req.delimiter hp
  unfold rollItem RollUp.name
  rw [hb]
  cases commonPrefixOf req.pre req.delimiter r.1 with
  | none => exact h
  | some p => rfl

/-- The rows after the skip prefix was set do not come before it. -/
def SkipBelow (skipPrefix : Option Str) (l : List (Str × Manifest)) : Prop :=
  ∀ p, skipPrefix = some p → ∀ r ∈ l, p ≤ r.1

theorem skipBelow_none : SkipBelow none l := by
  intro p hp
  cases hp

theorem skipBelow_next {r : Str × Manifest} (h : LoopRows req (r :: l)) :
    SkipBelow (commonPrefixOf req.pre req.delimiter r.1) l := by
  intro p hp x hx
  have hpre := h.pre r (List.mem_cons_self ..)
  rw [← rollUp_block _ hpre] at hp
  have hle := Word.le_of_prefix ((rollUp req.pre req.delimiter).block_pre r.1 p hp)
  exact hle.trans ((List.pairwise_cons.mp h.sorted).1 x hx).le

/-- Every object outside the skipped prefix is listed. -/
theorem rollAll_mem {skipPrefix : Option Str} (h : LoopRows req l) (hskip : SkipBelow skipPrefix l) {item : ListItem} :
    item ∈ rollAll req skipPrefix l ↔
      ∃ r ∈ l, r.2.kind = .object ∧ (∀ p, skipPrefix = some p → ¬ p <+: r.1) ∧ item = rollItem req r := by
  induction l generalizing skipPrefix with
  | nil => simp [rollAll]
  | cons r l ih =>
    have htail : ∀ {s : Option Str}, SkipBelow s (r :: l) → SkipBelow s l :=
      fun hs p hp x hx => hs p hp x (List.mem_cons_of_mem _ hx)
    obtain ⟨key, m⟩ := r
    simp only [rollAll]
    split
    · rename_i hk
      rw [ih h.tail (htail hskip), List.exists_mem_cons_iff]
      simp [hk]
    · rename_i hk
      split
      · rename_i hs
        obtain ⟨p, hp, hin⟩ : ∃ p, skipPrefix = some p ∧ p <+: key := by
          simpa [Option.any_eq_true] using hs
        rw [ih h.tail (htail hskip), List.exists_mem_cons_iff]
        constructor
        · exact Or.inr
        · rintro (⟨-, hout, -⟩ | hr)
          · exact absurd hin (hout p hp)
          · exact hr
      · rename_i hs
        have hout : ∀ p, skipPrefix = some p → ¬ p <+: key := by
          intro p hp hin
          exact hs (by simp [hp, hin])
        rw [List.mem_cons, ih h.tail (skipBelow_next h), List.exists_mem_cons_iff]
        constructor
        · rintro (rfl | ⟨r, hr, hobj, -, rfl⟩)
          · exact Or.inl ⟨not_not.mp hk, hout, rfl⟩
          · refine Or.inr ⟨r, hr, hobj, ?_, rfl⟩
            -- a later key with the skipped prefix would put this one between two keys that have it
            intro p hp hin
            have hlt := (List.pairwise_cons.mp h.sorted).1 r hr
            exact hout p hp (Word.prefix_of_between (List.prefix_refl p) hin (hskip p hp _ (List.mem_cons_self ..)) hlt.le)
        · rintro (⟨-, -, rfl⟩ | ⟨r, hr, hobj, -, rfl⟩)
          · exact Or.inl rfl
          · by_cases hin : ∃ p, commonPrefixOf req.pre req.delimiter key = some p ∧ p <+: r.1
            · -- rolled up with this key
              obtain ⟨p, hp, hin⟩ := hin
              have hpre := h.pre (key, m) (List.mem_cons_self ..)
              rw [← rollUp_block _ hpre] at hp
              have hr' := (rollUp req.pre req.delimiter).block_stable key p hp r.1 hin
              rw [rollUp_block _ (h.tail.pre r hr)] at hr'
              rw [rollUp_block _ hpre] at hp
              refine Or.inl ?_
              simp only [rollItem, hr', hp]
            · refine Or.inr ⟨r, hr, hobj, ?_, rfl⟩
              intro p hp hin'
              exact hin ⟨p, hp, hin'⟩

/-- The names come in strictly ascending order. -/
theorem rollAll_ascending {skipPrefix : Option Str} (h : LoopRows req l) (hskip : SkipBelow skipPrefix l) :
    ((rollAll req skipPrefix l).map ListItem.name).Pairwise (· < ·) := by
  induction l generalizing skipPrefix with
  | nil => simp [rollAll]
  | cons r l ih =>
    have htail : SkipBelow skipPrefix l := fun p hp x hx => hskip p hp x (List.mem_cons_of_mem _ hx)
    obtain ⟨key, m⟩ := r
    simp only [rollAll]
    split
    · exact ih h.tail htail
    · split
      · exact ih h.tail htail
      · rw [List.map_cons, List.pairwise_cons]
        refine ⟨?_, ih h.tail (skipBelow_next h)⟩
        intro n hn
        obtain ⟨item, hitem, rfl⟩ := List.mem_map.mp hn
        obtain ⟨r, hr, -, hout, rfl⟩ := (rollAll_mem h.tail (skipBelow_next h)).mp hitem
        have hpre := h.pre (key, m) (List.mem_cons_self ..)
        rw [rollItem_name (h.own _ (List.mem_cons_self ..)) hpre, rollItem_name (h.tail.own r hr) (h.tail.pre r hr)]
        refine (rollUp req.pre req.delimiter).name_lt ((List.pairwise_cons.mp h.sorted).1 r hr) ?_
        intro p hp
        rw [rollUp_block _ hpre] at hp
        exact hout p hp

end

/-! ## A page -/

section
variable {db : Db} {req : ListObjectsRequest}

/-- What is left of the listing at the cursor. -/
def remaining (db : Db) (req : ListObjectsRequest) : List ListItem :=
  rollAll req none ((req.scan db).foldl noteLatest .empty).rows

/-- A page is the first `limit` items left, truncated when there are more. -/
theorem handleListObjects_eq (db : Db) (req : ListObjectsRequest) :
    handleListObjects db req = cutPage req.limit (remaining db req) :=
  pageLoop_eq req (Nat.zero_le _) none _

theorem loopRows (hdb : WellKeyed db) (hreq : req.Valid) (hc : req.Meets req.cursor) :
    LoopRows req ((req.scan db).foldl noteLatest .empty).rows where
  sorted := Table.sorted _
  own := by
    intro r hr
    obtain ⟨h, -, -⟩ := (latestByKey_get hdb hreq hc).mp (Table.get_of_mem hr)
    exact (mem_versionsOf.mp (get_latest_mem hdb h)).2.2.2
  pre := by
    intro r hr
    exact ((latestByKey_get hdb hreq hc).mp (Table.get_of_mem hr)).2.1

theorem remaining_ascending (hdb : WellKeyed db) (hreq : req.Valid) (hc : req.Meets req.cursor) :
    ((remaining db req).map ListItem.name).Pairwise (· < ·) := rollAll_ascending (loopRows hdb hreq hc) skipBelow_none

/-- What is left are the items of the reference listing past the cursor. -/
theorem mem_remaining (hdb : WellKeyed db) (hreq : req.Valid) (hc : req.Meets req.cursor) {item : ListItem} :
    item ∈ remaining db req ↔ InListing db req item ∧ Past (cursorName req.cursor) item.name := by
  rw [remaining, rollAll_mem (loopRows hdb hreq hc) skipBelow_none]
  constructor
  · rintro ⟨⟨key, m⟩, hr, hobj, -, rfl⟩
    obtain ⟨hlatest, hp, hpast⟩ := (latestByKey_get hdb hreq hc).mp (Table.get_of_mem hr)
    obtain ⟨hown, -⟩ := IsCurrent.key_eq hdb ⟨hlatest, hobj⟩
    refine ⟨?_, by rwa [rollItem_name hown hp]⟩
    unfold rollItem
    cases hcp : commonPrefixOf req.pre req.delimiter key with
    | none =>
      simp only at hown hobj hcp hp hlatest
      subst hown
      exact .object ⟨hlatest, hobj⟩ hp hcp
    | some p => exact .commonPrefix ⟨hlatest, hobj⟩ hp hcp
  · rintro ⟨hin, hpast⟩
    cases hin with
    | @object m hcur hp hcp =>
      have hb : (rollUp req.pre req.delimiter).block m.key.key = none := by rw [rollUp_block _ hp, hcp]
      refine ⟨(m.key.key, m), Table.mem_rows.mpr ((latestByKey_get hdb hreq hc).mpr ⟨hcur.1, hp, ?_⟩), hcur.2, nofun, ?_⟩
      · rwa [(rollUp req.pre req.delimiter).name_of_none hb]
      · simp only [rollItem, hcp]
    | @commonPrefix key m p hcur hp hcp =>
      have hb : (rollUp req.pre req.delimiter).block key = some p := by rw [rollUp_block _ hp, hcp]
      refine ⟨(key, m), Table.mem_rows.mpr ((latestByKey_get hdb hreq hc).mpr ⟨hcur.1, hp, ?_⟩), hcur.2, nofun, ?_⟩
      · rwa [(rollUp req.pre req.delimiter).name_of_block hb]
      · simp only [rollItem, hcp]

theorem cutPage_items (limit : Nat) (items : List ListItem) : (cutPage limit items).items = items.take limit := by
  unfold cutPage
  split
  · rename_i h
    exact (List.take_of_length_le h).symm
  · rfl

theorem cutPage_truncated (limit : Nat) (items : List ListItem) :
    (cutPage limit items).truncated = decide (limit < items.length) := by
  unfold cutPage
  split
  · rename_i h
    simp [Nat.not_lt.mpr h]
  · rename_i h
    simp [Nat.not_le.mp h]

theorem cutPage_next {limit : Nat} {items : List ListItem} (h : (cutPage limit items).truncated = true) :
    (cutPage limit items).nextCursor = (cutPage limit items).items.getLast?.map ListItem.cursor := by
  unfold cutPage at h ⊢
  split
  · rename_i hle
    rw [if_pos hle] at h
    cases h
  · rfl

/-- A page of `list_objects` is a page of the reference listing. -/
theorem page_isPage (hdb : WellKeyed db) (hreq : req.Valid) (hc : req.Meets req.cursor) (hlimit : 0 < req.limit) :
    IsPage (listingNames db req) (cursorName req.cursor) ((handleListObjects db req).items.map ListItem.name)
      (handleListObjects db req).truncated := by
  rw [handleListObjects_eq, cutPage_items, cutPage_truncated, List.map_take]
  have := IsPage.of_take (S := listingNames db req) (c := cursorName req.cursor) (remaining_ascending hdb hreq hc)
    (fun n => ?_) hlimit
  · simpa using this
  · simp only [List.mem_map, mem_remaining hdb hreq hc, listingNames, Set.mem_ofPred_eq]
    constructor
    · rintro ⟨item, ⟨hin, hpast⟩, rfl⟩
      exact ⟨⟨item, hin, rfl⟩, hpast⟩
    · rintro ⟨⟨item, hin, rfl⟩, hpast⟩
      exact ⟨item, ⟨hin, hpast⟩, rfl⟩

/-- The cursor of an item listed is one a walk meets. -/
theorem item_cursor (hdb : WellKeyed db) {item : ListItem} (h : InListing db req item) :
    req.Meets (some item.cursor) ∧ cursorName (some item.cursor) = item.name := by
  cases h with
  | object hcur hp hcp => exact ⟨.afterKey (hcur.key_eq hdb).2 hp hcp, rfl⟩
  | commonPrefix hcur hp hcp => exact ⟨.afterPrefix (hcur.key_eq hdb).2 hp hcp, rfl⟩

end

end S3lite
