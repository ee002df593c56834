/-
  S3lite.Access.SpecText — the canonical request of the SigV4 specification.

  The specification's text of a request (`specRequest`) is of the request's own parameters
  and headers; `verify` builds its text from the URL and the headers it receives
  (`builtRequest`).
  - `canonicalQuery_eq_spec`: their queries are the same unless a parameter is taken for the
    signature.
  - `builtRequest_eq_spec`: the two are the same exactly when the signed headers are listed in
    order, their values are visible ASCII without a run of spaces, and no parameter is named
    like the signature but for its case (`PlainRequest`).
-/
import S3lite.Access.Canonical
import S3lite.Access.Naming

namespace S3lite

/-! ## The specification's text -/

/-- SigV4 leaves the unreserved characters as they are. -/
def sigv4Encode (s : Str) : Str := percentEncode isUnreserved s

def encodePair (kv : Str × Str) : Str × Str := (sigv4Encode kv.1, sigv4Encode kv.2)

/-- A query in canonical encoding. -/
def urlQuery (params : List (Str × Str)) : Str := writeQuery (params.map encodePair)

/-- Every parameter but the signature, sorted. -/
def specQuery (params : List (Str × Str)) : Str :=
  writeQuery (sortPairs ((params.filter fun kv => kv.1 ≠ str "X-Amz-Signature").map encodePair))

/-- A run of spaces becomes one. -/
def collapse : Str → Str
  | [] => []
  | c :: s => if c = 32 ∧ s.head? = some 32 then collapse s else c :: collapse s

/-- The values of a header, in order. -/
def valuesOf (headers : HeaderMap) (name : Str) : List Bytes :=
  (headers.filter fun h => toAsciiLower h.1 = name).map (·.2)

/-- A header's name and its values, as the given function writes each. -/
def headerLine (text : Bytes → Str) (headers : HeaderMap) (name : Str) : Str :=
  name ++ str ":" ++ (str ",").intercalate ((valuesOf headers name).map text) ++ str "\n"

/-- The names once each, in order. -/
def sortedNames (signed : List Str) : List Str := signed.dedup.insertionSort (· ≤ ·)

/-- A signed header is in the request. -/
def AllPresent (headers : HeaderMap) (signed : List Str) : Prop := ∀ name ∈ signed, valuesOf headers name ≠ []

instance instDecidableAllPresent (headers : HeaderMap) (signed : List Str) : Decidable (AllPresent headers signed) :=
  inferInstanceAs (Decidable (∀ name ∈ signed, valuesOf headers name ≠ []))

/-- Values are trimmed and their runs of spaces collapsed. -/
def specValue (v : Bytes) : Str := collapse (trim v)

/-- The canonical request; there is none if a signed header is missing. -/
def specRequest (method : Method) (path : Str) (params : List (Str × Str)) (headers : HeaderMap) (signed : List Str) :
    Option Str :=
  if AllPresent headers signed then
    some ((str "\n").intercalate
      [method.name, if path = [] then str "/" else path, specQuery params,
        (sortedNames signed).flatMap (headerLine specValue headers),
        (str ";").intercalate (signed.insertionSort (· ≤ ·)), str "UNSIGNED-PAYLOAD"])
  else none

/-! ## The verifier's text -/

/-- What `verify` hashes. -/
def builtRequest (method : Method) (path query : Str) (headers : HeaderMap) (signed : List Str) : Except S3Error Str := do
  let canonical ← canonicalHeaders headers signed
  return canonicalRequest method path query canonical signed

/-- The condition on a request's parameters, headers and signed headers. -/
structure PlainRequest (params : List (Str × Str)) (headers : HeaderMap) (signed : List Str) : Prop where
  sorted : signed.Pairwise (· ≤ ·)
  named : ∀ kv ∈ params, eqIgnoreAsciiCase kv.1 (str "X-Amz-Signature") = true → kv.1 = str "X-Amz-Signature"
  visible : ∀ name ∈ signed, ∀ v ∈ valuesOf headers name, toStr v = some v
  spaced : ∀ name ∈ signed, ∀ v ∈ valuesOf headers name, ¬ [32, 32] <:+: trim v

/-! ### Values -/

theorem collapse_length_le (s : Str) : (collapse s).length ≤ s.length := by
  induction s with
  | nil => exact le_rfl
  | cons c s ih =>
    rw [collapse]
    split
    · exact ih.trans (Nat.le_succ _)
    · exact Nat.succ_le_succ ih

theorem collapse_eq_self {s : Str} (h : ¬ [32, 32] <:+: s) : collapse s = s := by
  induction s with
  | nil => rfl
  | cons c s ih =>
    rw [List.infix_cons_iff, not_or] at h
    rw [collapse, if_neg, ih h.2]
    intro hrun
    obtain ⟨rfl, hs⟩ := hrun
    obtain ⟨t, rfl⟩ := List.head?_eq_some_iff.mp hs
    exact h.1 (List.prefix_append [32, 32] t)

/-- A run of spaces is shortened. -/
theorem collapse_length_lt {s : Str} (h : [32, 32] <:+: s) : (collapse s).length < s.length := by
  induction s with
  | nil => cases List.infix_nil.mp h
  | cons c s ih =>
    rw [collapse]
    split
    · exact Nat.lt_succ_of_le (collapse_length_le s)
    · rename_i hrun
      rcases List.infix_cons_iff.mp h with h | h
      · obtain ⟨rfl, t, rfl⟩ := List.cons_prefix_cons.mp h
        exact absurd ⟨rfl, rfl⟩ hrun
      · exact Nat.succ_lt_succ (ih h)

/-! ### Headers -/

theorem mem_sortedNames {signed : List Str} {name : Str} : name ∈ sortedNames signed ↔ name ∈ signed := by
  rw [sortedNames, List.mem_insertionSort, List.mem_dedup]

theorem sortedNames_sorted (signed : List Str) : (sortedNames signed).Pairwise (· < ·) := by
  have hle : (sortedNames signed).Pairwise (· ≤ ·) := List.pairwise_insertionSort _ _
  have hnd : (sortedNames signed).Nodup := (List.perm_insertionSort _ _).nodup_iff.mpr (List.nodup_dedup signed)
  exact hle.imp_of_mem (fun _ _ h => h) |>.and hnd |>.imp fun h => lt_of_le_of_ne h.1 h.2

/-- Each signed header's values are collected under its name. -/
theorem slots_ok (headers : HeaderMap) (t : Table Str (List Str))
    (h : ∀ x ∈ headers, (t.get (toAsciiLower x.1)).isSome → toStr x.2 = some x.2) :
    ∃ t', headers.foldlM slotHeader t = .ok t' ∧
      ∀ name, t'.get name = (t.get name).map (· ++ (valuesOf headers name).map trim) := by
  induction headers generalizing t with
  | nil => exact ⟨t, rfl, fun name => by simp [valuesOf]⟩
  | cons x headers ih =>
    have hx := h x (List.mem_cons_self ..)
    rw [List.foldlM_cons]
    cases hslot : t.get (toAsciiLower x.1) with
    | none =>
      obtain ⟨t', ht', hget⟩ := ih t fun y hy => h y (List.mem_cons_of_mem _ hy)
      refine ⟨t', by rw [slotHeader, hslot]; exact ht', fun name => ?_⟩
      rw [hget]
      by_cases e : toAsciiLower x.1 = name
      · rw [← e, hslot]
        rfl
      · simp [valuesOf, e]
    | some slot =>
      rw [hslot] at hx
      obtain ⟨t', ht', hget⟩ := ih (t.insert (toAsciiLower x.1) (slot ++ [trim x.2])) fun y hy hsome => by
        refine h y (List.mem_cons_of_mem _ hy) ?_
        rw [Table.get_insert] at hsome
        split at hsome
        · rename_i e
          rw [e, hslot]
          rfl
        · exact hsome
      refine ⟨t', by simp only [slotHeader, hslot, hx rfl]; exact ht', fun name => ?_⟩
      rw [hget, Table.get_insert]
      by_cases e : name = toAsciiLower x.1
      · simp [valuesOf, e, hslot]
      · simp [valuesOf, e, Ne.symm e]

/-- A signed header that is not visible ASCII is refused. -/
theorem slots_error {headers : HeaderMap} (t : Table Str (List Str)) {x : Str × Bytes} (hx : x ∈ headers)
    (hslot : (t.get (toAsciiLower x.1)).isSome) (hv : toStr x.2 = none) :
    ∃ e, headers.foldlM slotHeader t = .error e := by
  induction headers generalizing t with
  | nil => cases hx
  | cons y headers ih =>
    rw [List.foldlM_cons]
    rcases List.mem_cons.mp hx with rfl | hx
    · obtain ⟨slot, hs⟩ := Option.isSome_iff_exists.mp hslot
      exact ⟨_, by simp only [slotHeader, hs, hv]; rfl⟩
    · cases hy : slotHeader t y with
      | error e => exact ⟨e, rfl⟩
      | ok t' =>
        refine ih t' hx ?_
        cases hs : t.get (toAsciiLower y.1) with
        | none =>
          simp only [slotHeader, hs] at hy
          cases hy
          exact hslot
        | some slot =>
          simp only [slotHeader, hs] at hy
          split at hy
          · cases hy
            rw [Table.get_insert]
            split
            · rfl
            · exact hslot
          · cases hy

theorem writeHeaders_ok {rows : List (Str × List Str)} (h : ∀ r ∈ rows, r.2 ≠ []) :
    writeHeaders rows = .ok (rows.flatMap fun r => r.1 ++ str ":" ++ (str ",").intercalate r.2 ++ str "\n") := by
  induction rows with
  | nil => rfl
  | cons r rows ih =>
    obtain ⟨name, values⟩ := r
    have hne : values ≠ [] := h _ (List.mem_cons_self ..)
    rw [writeHeaders, if_neg (by simpa using hne), ih fun x hx => h x (List.mem_cons_of_mem _ hx)]
    rfl

theorem writeHeaders_error {rows : List (Str × List Str)} {r : Str × List Str} (hr : r ∈ rows) (h : r.2 = []) :
    ∃ e, writeHeaders rows = .error e := by
  induction rows with
  | nil => cases hr
  | cons x rows ih =>
    obtain ⟨name, values⟩ := x
    rw [writeHeaders]
    split
    · exact ⟨_, rfl⟩
    · rename_i hne
      rcases List.mem_cons.mp hr with rfl | hr
      · exact absurd (by simpa using h) hne
      · obtain ⟨e, he⟩ := ih hr
        rw [he]
        exact ⟨e, rfl⟩

theorem emptySlots_get {signed : List Str} {name : Str} :
    (signed.foldl (fun t n => t.insert n []) (Table.empty : Table Str (List Str))).get name =
      if name ∈ signed then some [] else none := by
  have hslots : ∀ t : Table Str (List Str), (signed.foldl (fun t n => t.insert n []) t).get name =
      if name ∈ signed then some [] else t.get name := by
    induction signed with
    | nil => simp
    | cons n signed ih =>
      intro t
      rw [List.foldl_cons, ih, Table.get_insert]
      by_cases h : name ∈ signed <;> by_cases e : name = n <;> simp [h, e]
  exact hslots _

/-- The signed headers are written out, if they are all there in visible ASCII. -/
theorem canonicalHeaders_ok {headers : HeaderMap} {signed : List Str} (hall : AllPresent headers signed)
    (hv : ∀ name ∈ signed, ∀ v ∈ valuesOf headers name, toStr v = some v) :
    canonicalHeaders headers signed = .ok ((sortedNames signed).flatMap (headerLine trim headers)) := by
  obtain ⟨t, ht, hget⟩ := slots_ok headers
    (signed.foldl (fun t n => t.insert n []) (Table.empty : Table Str (List Str))) fun x hx hsome => by
      rw [emptySlots_get] at hsome
      split at hsome
      · rename_i hm
        exact hv _ hm x.2 (List.mem_map.mpr ⟨x, List.mem_filter.mpr ⟨hx, by simp⟩, rfl⟩)
      · cases hsome
  have hget : ∀ name values, t.get name = some values ↔ name ∈ signed ∧ values = (valuesOf headers name).map trim := by
    intro name values
    rw [hget, emptySlots_get]
    by_cases hm : name ∈ signed <;> simp [hm, eq_comm]
  have hrows : t.rows = (sortedNames signed).map fun name => (name, (valuesOf headers name).map trim) := by
    have hsorted : ((sortedNames signed).map fun name => (name, (valuesOf headers name).map trim)).Pairwise
        fun a b => a.1 < b.1 := List.pairwise_map.mpr (sortedNames_sorted signed)
    have hmem : ∀ r, r ∈ t.rows ↔ r ∈ (sortedNames signed).map fun name => (name, (valuesOf headers name).map trim) := by
      intro r
      obtain ⟨name, values⟩ := r
      rw [Table.mem_rows, hget, List.mem_map]
      constructor
      · rintro ⟨hm, rfl⟩
        exact ⟨name, mem_sortedNames.mpr hm, rfl⟩
      · rintro ⟨n, hn, e⟩
        cases e
        exact ⟨mem_sortedNames.mp hn, rfl⟩
    have hnd : ∀ {l : List (Str × List Str)}, l.Pairwise (fun a b => a.1 < b.1) → l.Nodup := fun hl =>
      hl.imp fun h e => absurd (e ▸ h) (lt_irrefl _)
    have hperm := (List.perm_ext_iff_of_nodup (hnd t.sorted) (hnd hsorted)).mpr hmem
    exact hperm.eq_of_pairwise (fun a b _ _ hab hba => absurd hba (lt_asymm hab)) t.sorted hsorted
  have hne : ∀ r ∈ t.rows, r.2 ≠ [] := by
    intro r hr e
    obtain ⟨hm, hval⟩ := (hget r.1 r.2).mp (Table.mem_rows.mp hr)
    exact hall r.1 hm (List.map_eq_nil_iff.mp (hval ▸ e))
  rw [canonicalHeaders, ht]
  show writeHeaders t.rows = _
  rw [writeHeaders_ok hne, hrows, List.flatMap_map]
  rfl

/-- Otherwise the request is refused. -/
theorem canonicalHeaders_error {headers : HeaderMap} {signed : List Str}
    (h : (∃ name ∈ signed, valuesOf headers name = []) ∨ ∃ name ∈ signed, ∃ v ∈ valuesOf headers name, toStr v = none) :
    ∃ e, canonicalHeaders headers signed = .error e := by
  by_cases hv : ∃ name ∈ signed, ∃ v ∈ valuesOf headers name, toStr v = none
  · obtain ⟨name, hn, v, hv, hnone⟩ := hv
    obtain ⟨x, hx, rfl⟩ := List.mem_map.mp hv
    obtain ⟨hx, hname⟩ := List.mem_filter.mp hx
    obtain ⟨e, he⟩ := slots_error (signed.foldl (fun t n => t.insert n []) (Table.empty : Table Str (List Str))) hx
      (by rw [emptySlots_get, if_pos (by simpa using (of_decide_eq_true hname) ▸ hn)]; rfl) hnone
    refine ⟨e, ?_⟩
    rw [canonicalHeaders, he]
    rfl
  · obtain ⟨name, hn, hnil⟩ := h.resolve_right hv
    obtain ⟨t, ht, hget⟩ := slots_ok headers
      (signed.foldl (fun t n => t.insert n []) (Table.empty : Table Str (List Str))) fun x hx hsome => by
        rw [emptySlots_get] at hsome
        split at hsome
        · rename_i hm
          by_contra hne
          have hnone : toStr x.2 = none := by
            unfold toStr at hne ⊢
            split at hne
            · exact absurd rfl hne
            · rename_i hvis
              exact if_neg hvis
          exact hv ⟨_, hm, x.2, List.mem_map.mpr ⟨x, List.mem_filter.mpr ⟨hx, by simp⟩, rfl⟩, hnone⟩
        · cases hsome
    have hrow : (name, ([] : List Str)) ∈ t.rows := by
      rw [Table.mem_rows, hget, emptySlots_get, if_pos hn, hnil]
      rfl
    obtain ⟨e, he⟩ := writeHeaders_error hrow rfl
    refine ⟨e, ?_⟩
    rw [canonicalHeaders, ht]
    exact he

theorem length_intercalate (sep : Str) (l : List Str) :
    (sep.intercalate l).length = (l.map List.length).sum + (l.length - 1) * sep.length := by
  induction l with
  | nil => simp
  | cons a l ih =>
    cases l with
    | nil => simp
    | cons b l =>
      rw [List.intercalate_cons_cons, List.length_append, List.length_append, ih]
      simp only [List.map_cons, List.sum_cons, List.length_cons, Nat.add_sub_cancel, Nat.add_mul]
      omega

theorem headerLine_length (text : Bytes → Str) (headers : HeaderMap) (name : Str) :
    (headerLine text headers name).length = ((valuesOf headers name).map fun v => (text v).length).sum +
      (name.length + ((valuesOf headers name).length - 1) + 2) := by
  simp only [headerLine, List.length_append, length_intercalate, List.map_map, List.length_map]
  rw [show (str ":").length = 1 by rfl, show (str ",").length = 1 by rfl,
    show (str "\n").length = 1 by rfl]
  simp only [Function.comp_def]
  omega

theorem specValue_length_le (v : Bytes) : (specValue v).length ≤ (trim v).length := collapse_length_le _

/-- The specification's header text is shorter where a run of spaces is. -/
theorem headerText_length_lt {headers : HeaderMap} {names : List Str} {name : Str} (hn : name ∈ names) {v : Bytes}
    (hv : v ∈ valuesOf headers name) (hrun : [32, 32] <:+: trim v) :
    (names.flatMap (headerLine specValue headers)).length < (names.flatMap (headerLine trim headers)).length := by
  rw [List.length_flatMap, List.length_flatMap]
  refine List.sum_lt_sum _ _ (fun n _ => ?_) ⟨name, hn, ?_⟩
  · rw [headerLine_length, headerLine_length]
    exact Nat.add_le_add_right (List.sum_le_sum fun v _ => specValue_length_le v) _
  · rw [headerLine_length, headerLine_length]
    exact Nat.add_lt_add_right (List.sum_lt_sum _ _ (fun v _ => specValue_length_le v) ⟨v, hv, collapse_length_lt hrun⟩) _

/-! ### Parameters -/

/-- A byte that is unreserved in lower case is unreserved. -/
theorem unreserved_of_lower {b c : UInt8} (hc : isUnreserved c = true)
    (e : (if 65 ≤ b ∧ b ≤ 90 then b + 32 else b) = if 65 ≤ c ∧ c ≤ 90 then c + 32 else c) : isUnreserved b = true := by
  have hup : ∀ n < 256, isUnreserved (UInt8.ofNat n) = true →
      isUnreserved (if 65 ≤ UInt8.ofNat n ∧ UInt8.ofNat n ≤ 90 then UInt8.ofNat n + 32 else UInt8.ofNat n) = true := by
    decide +kernel
  have hdown : ∀ n < 256, isUnreserved (if 65 ≤ UInt8.ofNat n ∧ UInt8.ofNat n ≤ 90 then UInt8.ofNat n + 32 else UInt8.ofNat n) = true →
      isUnreserved (UInt8.ofNat n) = true := by
    decide +kernel
  have hc' := hup c.toNat c.toNat_lt (by rwa [UInt8.ofNat_toNat])
  rw [UInt8.ofNat_toNat, ← e] at hc'
  have hb := hdown b.toNat b.toNat_lt (by rwa [UInt8.ofNat_toNat])
  rwa [UInt8.ofNat_toNat] at hb

/-- A name that is like one of unreserved characters but for its case is its own encoding. -/
theorem sigv4Encode_like {name k : Str} (hname : ∀ c ∈ name, isUnreserved c = true) (e : toAsciiLower k = toAsciiLower name) :
    sigv4Encode k = k := by
  rw [sigv4Encode, percentEncode_eq_self]
  intro b hb
  have hmem : (if 65 ≤ b ∧ b ≤ 90 then b + 32 else b) ∈ toAsciiLower name := e ▸ List.mem_map_of_mem hb
  obtain ⟨c, hc, hbc⟩ := List.mem_map.mp hmem
  exact unreserved_of_lower (hname c hc) hbc.symm

/-- And it is recognized in its encoding. -/
theorem encode_ignoreCase {name : Str} (hname : ∀ c ∈ name, isUnreserved c = true) (k : Str) :
    eqIgnoreAsciiCase (sigv4Encode k) name = eqIgnoreAsciiCase k name := by
  have hiff : toAsciiLower (sigv4Encode k) = toAsciiLower name ↔ toAsciiLower k = toAsciiLower name := by
    constructor
    · intro e
      have hk : sigv4Encode k = k := by
        rw [sigv4Encode, percentEncode_eq_self]
        intro b hb
        by_contra hne
        have h37 : 37 ∈ sigv4Encode k := List.mem_flatMap.mpr ⟨b, hb, by rw [if_neg hne]; exact List.mem_cons_self ..⟩
        have hself := percentEncode_eq_self.mp (sigv4Encode_like hname e) 37 h37
        exact absurd hself (by decide)
      rwa [hk] at e
    · intro e
      rw [sigv4Encode_like hname e]
      exact e
  simp only [eqIgnoreAsciiCase, hiff]

theorem sigv4Encode_clear {c : UInt8} (hs : isUnreserved c = false) (h37 : c ≠ 37) (hx : ∀ n < 16, c ≠ hexUpperDigit n)
    (s : Str) : c ∉ sigv4Encode s := not_mem_percentEncode hs h37 hx s

theorem encodePair_plain (kv : Str × Str) : PlainPair (encodePair kv) :=
  ⟨sigv4Encode_clear (by decide) (by decide) (by decide) _, sigv4Encode_clear (by decide) (by decide) (by decide) _,
    sigv4Encode_clear (by decide) (by decide) (by decide) _⟩

/-- A query is read back as its parameters. -/
theorem signedPairs_urlQuery (params : List (Str × Str)) : signedPairs (urlQuery params) =
    (params.filter fun kv => !eqIgnoreAsciiCase kv.1 (str "X-Amz-Signature")).map encodePair := by
  have hname : ∀ c ∈ str "X-Amz-Signature", isUnreserved c = true := by decide
  have htoken : ∀ p ∈ (params.map encodePair).map (pairText 61), 38 ∉ p := by
    intro p hp
    obtain ⟨kv, hkv, rfl⟩ := List.mem_map.mp hp
    obtain ⟨x, -, rfl⟩ := List.mem_map.mp hkv
    exact (encodePair_plain x).token.1
  have hpair : ∀ kv : Str × Str, queryPair (pairText 61 (encodePair kv)) = encodePair kv := fun kv => by
    rw [queryPair, pairText, splitOnce_append (encodePair_plain kv).name]
    rfl
  have hall : ∀ params : List (Str × Str), ((((params.map encodePair).map (pairText 61)).filter fun token => !token.isEmpty).map
      queryPair).filter (fun kv => !eqIgnoreAsciiCase kv.1 (str "X-Amz-Signature")) =
        (params.filter fun kv => !eqIgnoreAsciiCase kv.1 (str "X-Amz-Signature")).map encodePair := by
    intro params
    induction params with
    | nil => rfl
    | cons kv params ih =>
      have hne : (pairText 61 (encodePair kv)).isEmpty = false := by simp [pairText]
      have hcase : eqIgnoreAsciiCase (encodePair kv).1 (str "X-Amz-Signature") = eqIgnoreAsciiCase kv.1 (str "X-Amz-Signature") :=
        encode_ignoreCase hname kv.1
      simp only [List.map_cons, List.filter_cons, hne, Bool.not_false, if_true, hpair, hcase, ih]
      split <;> rfl
  unfold signedPairs urlQuery writeQuery
  cases params with
  | nil => rfl
  | cons kv params =>
    have hsplit := splitByte_intercalate
      (show ((kv :: params).map encodePair).map (pairText 61) ≠ [] from List.cons_ne_nil _ _) htoken
    rw [show str "&" = [38] by rfl, hsplit, hall]

/-- The queries are the same unless a parameter is taken for the signature. -/
theorem canonicalQuery_eq_spec (params : List (Str × Str)) : canonicalQuery (urlQuery params) = specQuery params ↔
    ∀ kv ∈ params, eqIgnoreAsciiCase kv.1 (str "X-Amz-Signature") = true → kv.1 = str "X-Amz-Signature" := by
  rw [canonicalQuery_eq, signedPairs_urlQuery, specQuery]
  constructor
  · intro e kv hkv hcase
    by_contra hne
    have hplain : ∀ l : List (Str × Str), ∀ x ∈ sortPairs (l.map encodePair), PlainPair x := by
      intro l x hx
      obtain ⟨y, -, rfl⟩ := List.mem_map.mp ((sortPairs_perm _).mem_iff.mp hx)
      exact encodePair_plain y
    have hsorted := writeQuery_injective (hplain _) (hplain _) e
    have hlen : ((params.filter fun kv => !eqIgnoreAsciiCase kv.1 (str "X-Amz-Signature")).map encodePair).length =
        ((params.filter fun kv => decide (kv.1 ≠ str "X-Amz-Signature")).map encodePair).length := by
      rw [← (sortPairs_perm _).length_eq, hsorted, (sortPairs_perm _).length_eq]
    rw [List.length_map, List.length_map] at hlen
    have hsub := List.monotone_filter_right params (p := fun kv => !eqIgnoreAsciiCase kv.1 (str "X-Amz-Signature"))
      (q := fun kv => decide (kv.1 ≠ str "X-Amz-Signature")) fun x hx => by
        rw [Bool.not_eq_true'] at hx
        refine decide_eq_true fun hsig => ?_
        rw [hsig] at hx
        simp [eqIgnoreAsciiCase] at hx
    have hmem : kv ∈ params.filter fun kv => decide (kv.1 ≠ str "X-Amz-Signature") :=
      List.mem_filter.mpr ⟨hkv, decide_eq_true hne⟩
    rw [← hsub.eq_of_length hlen, List.mem_filter, hcase] at hmem
    exact absurd hmem.2 (by decide)
  · intro h
    have hfilter : params.filter (fun kv => !eqIgnoreAsciiCase kv.1 (str "X-Amz-Signature")) =
        params.filter fun kv => decide (kv.1 ≠ str "X-Amz-Signature") := by
      refine List.filter_congr fun kv hkv => ?_
      by_cases e : kv.1 = str "X-Amz-Signature"
      · simp [e, eqIgnoreAsciiCase]
      · have hcase : eqIgnoreAsciiCase kv.1 (str "X-Amz-Signature") = false := by
          by_contra hne
          exact e (h kv hkv (by simpa using hne))
        simp [e, hcase]
    rw [hfilter]

/-! ### The texts -/

/-- The six lines of a canonical request. -/
def requestText (method path query headers signed : Str) : Str :=
  (str "\n").intercalate [method, path, query, headers, signed, str "UNSIGNED-PAYLOAD"]

theorem requestText_injective {method path q q' h h' s s' : Str} (hq : 10 ∉ q) (hq' : 10 ∉ q') (hs : s.length = s'.length)
    (e : requestText method path q h s = requestText method path q' h' s') : q = q' ∧ h = h' ∧ s = s' := by
  have htext : ∀ q h s, requestText method path q h s =
      method ++ (10 :: (path ++ (10 :: pairText 10 (q, h ++ 10 :: (s ++ (10 :: str "UNSIGNED-PAYLOAD")))))) := by
    intro q h s
    simp only [requestText, List.intercalate_cons_cons, List.intercalate_singleton, pairText,
      show str "\n" = [10] by rfl, List.append_assoc, List.singleton_append]
  rw [htext, htext] at e
  have hpair := (List.cons.inj (List.append_cancel_left (List.cons.inj (List.append_cancel_left e)).2)).2
  obtain ⟨rfl, htail⟩ := Prod.mk.inj (pairText_injective hq hq' hpair)
  have htotal := congrArg List.length htail
  simp only [List.length_append, List.length_cons] at htotal
  obtain ⟨rfl, hrest⟩ := List.append_inj htail (by omega)
  exact ⟨rfl, rfl, List.append_cancel_right (List.cons.inj hrest).2⟩

/-- An encoded query is one line. -/
theorem newline_writeQuery {pairs : List (Str × Str)} (h : ∀ kv ∈ pairs, ∃ x, kv = encodePair x) : 10 ∉ writeQuery pairs := by
  intro hc
  obtain ⟨p, hp, hc⟩ := (mem_intercalate hc).resolve_left (by decide)
  revert hc
  obtain ⟨kv, hkv, rfl⟩ := List.mem_map.mp hp
  obtain ⟨x, rfl⟩ := h kv hkv
  have hclear : ∀ s, 10 ∉ sigv4Encode s := fun s => sigv4Encode_clear (by decide) (by decide) (by decide) s
  simp only [pairText, encodePair, List.mem_append, List.mem_cons, hclear, false_or, or_false]
  decide

theorem newline_specQuery (params : List (Str × Str)) : 10 ∉ specQuery params := by
  refine newline_writeQuery fun kv hkv => ?_
  obtain ⟨x, -, rfl⟩ := List.mem_map.mp ((sortPairs_perm _).mem_iff.mp hkv)
  exact ⟨x, rfl⟩

theorem newline_canonicalQuery (params : List (Str × Str)) : 10 ∉ canonicalQuery (urlQuery params) := by
  rw [canonicalQuery_eq, signedPairs_urlQuery]
  refine newline_writeQuery fun kv hkv => ?_
  obtain ⟨x, -, rfl⟩ := List.mem_map.mp ((sortPairs_perm _).mem_iff.mp hkv)
  exact ⟨x, rfl⟩

theorem canonicalRequest_eq (method : Method) (path query headers : Str) (signed : List Str) :
    canonicalRequest method path query headers signed =
      requestText method.name (if path = [] then str "/" else path) (canonicalQuery query) headers ((str ";").intercalate signed) := by
  cases path <;> rfl

/-- What the verifier takes for a list of names. -/
theorem mem_signedHeadersOf {raw name : Str} (h : name ∈ signedHeadersOf raw) : 59 ∉ name ∧ name ≠ [] := by
  obtain ⟨hname, hne⟩ := List.mem_filter.mp h
  refine ⟨fun hc => ?_, by simpa using hne⟩
  obtain ⟨piece, hpiece, rfl⟩ := List.mem_map.mp hname
  obtain ⟨b, hb, e⟩ := List.mem_map.mp hc
  have hlower : ∀ n < 256, (if 65 ≤ UInt8.ofNat n ∧ UInt8.ofNat n ≤ 90 then UInt8.ofNat n + 32 else UInt8.ofNat n) = 59 →
      UInt8.ofNat n = 59 := by
    decide +kernel
  have hb59 := hlower b.toNat b.toNat_lt
  rw [UInt8.ofNat_toNat] at hb59
  exact not_mem_of_mem_splitByte hpiece (mem_trim (hb59 e ▸ hb))

/-- Of a request with all its signed headers, the texts are the same exactly when it is plain. -/
theorem builtRequest_eq_spec (method : Method) (path : Str) (params : List (Str × Str)) {headers : HeaderMap}
    {signed : List Str} (hnames : ∀ name ∈ signed, 59 ∉ name ∧ name ≠ []) (hall : AllPresent headers signed) :
    (builtRequest method path (urlQuery params) headers signed).toOption = specRequest method path params headers signed ↔
      PlainRequest params headers signed := by
  rw [specRequest, if_pos hall]
  by_cases hv : ∀ name ∈ signed, ∀ v ∈ valuesOf headers name, toStr v = some v
  · have hbuilt : builtRequest method path (urlQuery params) headers signed =
        .ok (canonicalRequest method path (urlQuery params) ((sortedNames signed).flatMap (headerLine trim headers)) signed) := by
      rw [builtRequest, canonicalHeaders_ok hall hv]
      rfl
    have hperm : (signed.insertionSort (· ≤ ·)).Perm signed := List.perm_insertionSort _ _
    rw [hbuilt, canonicalRequest_eq]
    constructor
    · intro e
      have hlen : ((str ";").intercalate signed).length = ((str ";").intercalate (signed.insertionSort (· ≤ ·))).length := by
        rw [length_intercalate, length_intercalate, hperm.length_eq, (hperm.map List.length).sum_eq]
      obtain ⟨hq, hh, hs⟩ := requestText_injective (newline_canonicalQuery params) (newline_specQuery params) hlen
        (Option.some.inj e)
      refine ⟨?_, (canonicalQuery_eq_spec params).mp hq, hv, fun name hn v hval hrun => ?_⟩
      · have hsame := intercalate_injective hnames (fun name hn => hnames name (hperm.mem_iff.mp hn)) hs
        rw [hsame]
        exact List.pairwise_insertionSort _ _
      · have hlt := headerText_length_lt (mem_sortedNames.mpr hn) hval hrun
        rw [hh] at hlt
        exact lt_irrefl _ hlt
    · intro h
      have hspec : (sortedNames signed).flatMap (headerLine specValue headers) =
          (sortedNames signed).flatMap (headerLine trim headers) := by
        refine List.flatMap_congr fun name hn => ?_
        have hvalues : (valuesOf headers name).map specValue = (valuesOf headers name).map trim :=
          List.map_congr_left fun v hval => collapse_eq_self (h.spaced name (mem_sortedNames.mp hn) v hval)
        rw [headerLine, headerLine, hvalues]
      rw [hspec, ← (canonicalQuery_eq_spec params).mpr h.named, h.sorted.insertionSort_eq]
      rfl
  · refine iff_of_false ?_ fun h => hv h.visible
    have hnone : ∃ name ∈ signed, ∃ v ∈ valuesOf headers name, toStr v = none := by
      simp only [not_forall] at hv
      obtain ⟨name, hn, v, hval, hne⟩ := hv
      refine ⟨name, hn, v, hval, ?_⟩
      unfold toStr at hne ⊢
      split at hne
      · exact absurd rfl hne
      · rename_i hvis
        exact if_neg hvis
    obtain ⟨e, he⟩ := canonicalHeaders_error (Or.inr hnone)
    rw [builtRequest, he]
    exact nofun

end S3lite
