/-
  S3lite.Ranges.Copy — the range of a source that a part copy reads.

  - `Intact`: an object whose parts are all there, each as long as its manifest says.
  - `readParts_intact`: a GET reads the concatenation.
  - `readRange_intact`: the loop of `read_source_range` from the second part on.
  - `copy_range_iff`: the copy reads the bytes a ranged GET answers exactly when the first
    part of the source is not empty.
  - `an_empty_first_part_panics`: an upload whose first part is.
-/
import S3lite.Base.Pieces
import S3lite.Server.Alone
import S3lite.Safety.Pool

namespace S3lite

open Handler

/-! ## Intact objects -/

/-- The bytes of the parts, one string a part. -/
def partBytes (w : World) (parts : List PartRef) : List Bytes := parts.map fun p => (w.files.get p.hash).getD []

/-- The bytes of the object. -/
def objectBytes (w : World) (m : Manifest) : Bytes := (partBytes w m.parts).flatten

/-- The part's file is there, and as long as recorded. -/
def PartIntact (w : World) (p : PartRef) : Prop := ∃ data, w.files.get p.hash = some data ∧ data.length = p.size

/-- Every part is stored, and the size is the sum of theirs. -/
structure Intact (w : World) (m : Manifest) : Prop where
  parts : ∀ p ∈ m.parts, PartIntact w p
  size : m.size = (m.parts.map (·.size)).sum
  bounded : m.size < 2 ^ 64

variable {env : Env} {w : World}

theorem length_partBytes {parts : List PartRef} (h : ∀ p ∈ parts, PartIntact w p) :
    (partBytes w parts).flatten.length = (parts.map (·.size)).sum := by
  induction parts with
  | nil => rfl
  | cons p parts ih =>
    obtain ⟨data, hdata, hlen⟩ := h p (List.mem_cons_self ..)
    rw [partBytes, List.map_cons, List.flatten_cons, List.length_append, hdata, Option.getD_some, hlen, List.map_cons,
      List.sum_cons]
    exact congrArg (p.size + ·) (ih fun q hq => h q (List.mem_cons_of_mem _ hq))

theorem Intact.length {m : Manifest} (h : Intact w m) : (objectBytes w m).length = m.size :=
  (length_partBytes h.parts).trans h.size.symm

/-- A GET reads the parts one after the other. -/
theorem readParts_intact {parts : List PartRef} (h : ∀ p ∈ parts, PartIntact w p) :
    run env (readParts parts) w = (.ok (partBytes w parts).flatten, w) := by
  induction parts with
  | nil => rfl
  | cons p parts ih =>
    obtain ⟨data, hdata, -⟩ := h p (List.mem_cons_self ..)
    have ih := ih fun q hq => h q (List.mem_cons_of_mem _ hq)
    have hread : exec env (.readPart p.hash) w = (some data, w) := by rw [← hdata]; rfl
    rw [readParts, run_op_bind env hread, orFail_some, run_bind, run_ok]
    simp only
    rw [run_bind, ih]
    simp only [run_ok, partBytes, List.map_cons, List.flatten_cons, hdata, Option.getD_some]

/-- The object, or the range of it that a GET asks for. -/
theorem readBody_intact {m : Manifest} (h : Intact w m) {first last : Nat} (hlast : last < m.size) :
    run env (readBody m false (some (first, last))) w = (.ok (cut first (last + 1) (objectBytes w m)), w) := by
  have hlt : last < (objectBytes w m).length := by rwa [h.length]
  have hread : run env (readParts m.parts) w = (.ok (objectBytes w m), w) := readParts_intact h.parts
  rw [readBody, if_neg (by decide), run_bind, hread]
  simp only
  rw [sliceInclusive, if_pos hlt]
  rfl

/-! ## The loop -/

/-- From the part at byte `cursor` on, when it is not an empty first one. -/
theorem readRange_intact {first last : Nat} (hle : first ≤ last) {parts : List PartRef} (h : ∀ p ∈ parts, PartIntact w p)
    {cursor : Nat} (hsize : cursor + (parts.map (·.size)).sum < 2 ^ 64)
    (hstart : cursor = 0 → ∀ p, parts.head? = some p → p.size ≠ 0) :
    run env (readRange env first last cursor parts) w =
      (.ok (cut (first - cursor) (last + 1 - cursor) (partBytes w parts).flatten), w) := by
  induction parts generalizing cursor with
  | nil => rw [readRange, run_ok, partBytes, List.map_nil, List.flatten_nil, cut, List.take_nil, List.drop_nil]
  | cons p parts ih =>
    obtain ⟨data, hdata, hlen⟩ := h p (List.mem_cons_self ..)
    rw [List.map_cons, List.sum_cons] at hsize
    have hpos : 0 < cursor + p.size := by
      have := fun h0 => hstart h0 p rfl
      omega
    have hnext : (cursor + p.size) % 2 ^ 64 = cursor + p.size := Nat.mod_eq_of_lt (by omega)
    have hend : partEnd env cursor p.size = ok (cursor + p.size - 1) := if_pos ⟨hpos, by omega⟩
    have hrest : run env (readRange env first last (cursor + p.size) parts) w =
        (.ok (cut (first - (cursor + p.size)) (last + 1 - (cursor + p.size)) (partBytes w parts).flatten), w) :=
      ih (fun q hq => h q (List.mem_cons_of_mem _ hq)) (by omega) (by omega)
    have hbytes : (partBytes w (p :: parts)).flatten = data ++ (partBytes w parts).flatten := by
      rw [partBytes, List.map_cons, List.flatten_cons, hdata]
      rfl
    rw [hbytes, cut_append, hlen, Nat.sub_sub, Nat.sub_sub, readRange, hend, run_bind, run_ok]
    simp only [hnext]
    by_cases hskip : cursor + p.size - 1 < first ∨ last < cursor
    · have hnil : cut (first - cursor) (last + 1 - cursor) data = [] := cut_eq_nil (by omega)
      rw [if_pos hskip, hrest, hnil, List.nil_append]
    · have hread : exec env (.readPart p.hash) w = (some data, w) := by rw [← hdata]; rfl
      have hfirst : (if cursor < first then first - cursor else 0) = first - cursor := by
        split <;> omega
      have hchunk : ∀ e, e = (if last < cursor + p.size - 1 then last - cursor + 1 else p.size) →
          sliceExclusive data (first - cursor) e = ok (cut (first - cursor) (last + 1 - cursor) data) := by
        intro e he
        split at he
        · rw [sliceExclusive, if_pos (by omega), he, show last - cursor + 1 = last + 1 - cursor by omega]
          rfl
        · rw [sliceExclusive, if_pos (by omega), he, cut_of_le (n := last + 1 - cursor) (by omega), hlen]
          rfl
      rw [if_neg hskip, hfirst, run_op_bind env hread, orFail_some, run_bind, run_ok]
      simp only
      rw [hchunk _ rfl, run_bind, run_ok]
      simp only
      rw [run_bind, hrest]
      rfl

/-- An empty first part's last byte is before the object: the subtraction panics, or wraps
    around and the slice of the part does. -/
theorem readSourceRange_panics {m : Manifest} (h : Intact w m) {first last : Nat} (hle : first ≤ last)
    (hlast : last < m.size) {p : PartRef} (hp : m.parts.head? = some p) (hempty : p.size = 0) :
    run env (readSourceRange env m first last) w = (.error .panicked, w) := by
  obtain ⟨parts, hparts⟩ := List.head?_eq_some_iff.mp hp
  obtain ⟨data, hdata, hlen⟩ := h.parts p (hparts ▸ List.mem_cons_self ..)
  have hread : exec env (.readPart p.hash) w = (some data, w) := by rw [← hdata]; rfl
  have hbound := h.bounded
  rw [readSourceRange, hparts, readRange, hempty, partEnd, if_neg (by decide)]
  by_cases hd : env.debug = true
  · rw [if_pos hd, run_bind, run_panicked]
  · have hpart : ¬ ((0 + 0 + (2 ^ 64 - 1)) % 2 ^ 64 < first ∨ last < 0) := by omega
    have hwrap : last < (0 + 0 + (2 ^ 64 - 1)) % 2 ^ 64 := by omega
    have hslice : ∀ i, sliceExclusive data i (last - 0 + 1) = panicked := fun i => by
      rw [sliceExclusive, if_neg]
      rw [hlen, hempty]
      omega
    rw [if_neg hd, run_bind, run_ok]
    simp only
    rw [if_neg hpart, if_pos hwrap, run_op_bind env hread, orFail_some, run_bind, run_ok]
    simp only
    rw [hslice, run_bind, run_panicked]

/-! ## The range -/

theorem parseCopyRange_inside {value : Str} {size : Nat} {range : Nat × Nat} (h : parseCopyRange value size = .ok range) :
    range.1 ≤ range.2 ∧ range.2 < size := by
  unfold parseCopyRange at h
  split at h
  · cases h
  split at h
  · cases h
  split at h
  · cases h
  obtain ⟨first, -, h⟩ := bind_eq_ok.mp h
  obtain ⟨last, -, h⟩ := bind_eq_ok.mp h
  split at h
  · cases h
  split at h
  · cases h
  cases h
  omega

/-- The range to copy is in the source. -/
theorem copySourceRange_inside {bucket key : Str} {headers : HeaderMap} {size : Nat} {range : Nat × Nat}
    (h : copySourceRange bucket key headers size = .ok range) : range.1 ≤ range.2 ∧ range.2 < size := by
  unfold copySourceRange at h
  split at h
  · exact parseCopyRange_inside h
  · split at h
    · cases h
    · cases h
      exact ⟨Nat.zero_le _, by omega⟩

/-- The copy reads the range, as a GET of it does. -/
def CopiesRange (env : Env) (w : World) (m : Manifest) (range : Nat × Nat) : Prop :=
  run env (readSourceRange env m range.1 range.2) w = (.ok (cut range.1 (range.2 + 1) (objectBytes w m)), w) ∧
    run env (readBody m false (some range)) w = run env (readSourceRange env m range.1 range.2) w

theorem copy_range_iff {env : Env} {w : World} {m : Manifest} (h : Intact w m) {bucket key : Str} {headers : HeaderMap}
    {range : Nat × Nat} (hr : copySourceRange bucket key headers m.size = .ok range) :
    CopiesRange env w m range ↔ ∀ p, m.parts.head? = some p → p.size ≠ 0 := by
  obtain ⟨hle, hlast⟩ := copySourceRange_inside hr
  constructor
  · intro hc p hp hempty
    have hpanic : run env (readSourceRange env m range.1 range.2) w = (.error .panicked, w) :=
      readSourceRange_panics h hle hlast hp hempty
    rw [hc.1] at hpanic
    cases hpanic
  · intro hstart
    have hsum : 0 + (m.parts.map (·.size)).sum < 2 ^ 64 := by
      rw [Nat.zero_add, ← h.size]
      exact h.bounded
    have hcopy : run env (readSourceRange env m range.1 range.2) w =
        (.ok (cut range.1 (range.2 + 1) (objectBytes w m)), w) := readRange_intact hle h.parts hsum fun _ => hstart
    exact ⟨hcopy, (readBody_intact h hlast).trans hcopy.symm⟩

/-! ## An empty first part -/

/-- The document that lists an empty part and `a`. -/
def emptyPartDocument : Bytes :=
  str "<CompleteMultipartUpload><Part><PartNumber>1</PartNumber><ETag>\"d41d8cd98f00b204e9800998ecf8427e\"</ETag></Part>" ++
  str "<Part><PartNumber>2</PartNumber><ETag>\"0cc175b9c0f1b6a831c399e269772661\"</ETag></Part></CompleteMultipartUpload>"

/-- True digests of the empty string as well, and that document. -/
def emptyPartEnv : Env :=
  { sampleEnv with
    blake3 := fun d =>
      if d = [] then ⟨#[0xaf, 0x13, 0x49, 0xb9, 0xf5, 0xf9, 0xa1, 0xa6, 0xa0, 0x40, 0x4d, 0xea, 0x36, 0xdc, 0xc9, 0x49,
        0x9b, 0xcb, 0x25, 0xc9, 0xad, 0xc1, 0x12, 0xb7, 0xcc, 0x9a, 0x93, 0xca, 0xe4, 0x1f, 0x32, 0x62], rfl⟩
      else sampleEnv.blake3 d
    md5 := fun d =>
      if d = [] then ⟨#[0xd4, 0x1d, 0x8c, 0xd9, 0x8f, 0x00, 0xb2, 0x04, 0xe9, 0x80, 0x09, 0x98, 0xec, 0xf8, 0x42, 0x7e], rfl⟩
      else sampleEnv.md5 d
    xmlCompleteMultipartUpload := fun b =>
      if b = emptyPartDocument then
        .ok [(1, str "\"d41d8cd98f00b204e9800998ecf8427e\""), (2, str "\"0cc175b9c0f1b6a831c399e269772661\"")]
      else .error [] }

/-- An upload of an empty part and of `a`, completed. -/
def emptyPartWorld : World :=
  served emptyPartEnv .empty
    [.createBucket (str "bkt") [], .createMultipartUpload (str "bkt") (str "k") [],
      .uploadPart (str "bkt") (str "k") (emptyPartEnv.uuid 0) 1 [] [],
      .uploadPart (str "bkt") (str "k") (emptyPartEnv.uuid 0) 2 [] (str "a"),
      .completeMultipartUpload (str "bkt") (str "k") (emptyPartEnv.uuid 0) emptyPartDocument]

def emptyPartSource : Option Manifest := emptyPartWorld.db.objects.get (ManifestKey.encode ⟨str "bkt", str "k", nullVersionId⟩)

theorem emptyPartSource_intact : ∃ m, emptyPartSource = some m ∧ Intact emptyPartWorld m ∧
    copySourceRange (str "bkt") (str "copy") [] m.size = .ok (0, 0) ∧ ∃ p, m.parts.head? = some p ∧ p.size = 0 := by
  have hrow : emptyPartSource.map (fun m => (m.size, m.parts.map fun p =>
      (p.size, (emptyPartWorld.files.get p.hash).map List.length))) = some (1, [(0, some 0), (1, some 1)]) := by
    decide +kernel
  obtain ⟨m, hm, hrow⟩ := Option.map_eq_some_iff.mp hrow
  obtain ⟨hsize, hparts⟩ := Prod.mk.inj hrow
  obtain ⟨p, ps, hm1, h1, hps⟩ := List.map_eq_cons_iff.mp hparts
  obtain ⟨q, qs, rfl, h2, hqs⟩ := List.map_eq_cons_iff.mp hps
  cases List.map_eq_nil_iff.mp hqs
  obtain ⟨hp, hpfile⟩ := Prod.mk.inj h1
  obtain ⟨hq, hqfile⟩ := Prod.mk.inj h2
  refine ⟨m, hm, ⟨?_, ?_, ?_⟩, ?_, p, by rw [hm1]; rfl, hp⟩
  · intro x hx
    rw [hm1, List.mem_cons, List.mem_singleton] at hx
    rcases hx with rfl | rfl
    · obtain ⟨data, hdata, hlen⟩ := Option.map_eq_some_iff.mp hpfile
      exact ⟨data, hdata, hlen.trans hp.symm⟩
    · obtain ⟨data, hdata, hlen⟩ := Option.map_eq_some_iff.mp hqfile
      exact ⟨data, hdata, hlen.trans hq.symm⟩
  · rw [hm1, List.map_cons, List.map_singleton, hp, hq]
    exact hsize
  · rw [hsize]
    decide
  · rw [hsize]
    rfl

theorem copy_range_iff_empty_part : ∃ m, emptyPartSource = some m ∧ Intact emptyPartWorld m ∧
    (CopiesRange emptyPartEnv emptyPartWorld m (0, 0) ↔ ∀ p, m.parts.head? = some p → p.size ≠ 0) := by
  obtain ⟨m, hm, hs, hr, -⟩ := emptyPartSource_intact
  exact ⟨m, hm, hs, copy_range_iff hs hr⟩

/-- The one byte of the source is not copied: the server panics. -/
theorem an_empty_first_part_panics : ∃ m, emptyPartSource = some m ∧ Intact emptyPartWorld m ∧
    copySourceRange (str "bkt") (str "copy") [] m.size = .ok (0, 0) ∧
    run emptyPartEnv (readSourceRange emptyPartEnv m 0 0) emptyPartWorld = (.error .panicked, emptyPartWorld) ∧
    ¬ CopiesRange emptyPartEnv emptyPartWorld m (0, 0) := by
  obtain ⟨m, hm, hs, hr, p, hp, hempty⟩ := emptyPartSource_intact
  obtain ⟨hle, hlast⟩ := copySourceRange_inside hr
  have hpanic : run emptyPartEnv (readSourceRange emptyPartEnv m 0 0) emptyPartWorld = (.error .panicked, emptyPartWorld) :=
    readSourceRange_panics hs hle hlast hp hempty
  refine ⟨m, hm, hs, hr, hpanic, fun hc => ?_⟩
  rw [hc.1] at hpanic
  cases hpanic

end S3lite
