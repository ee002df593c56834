/-
  S3lite.Ranges.Header — the Range header of a GET (`parse_range_header`).

  - `refusesAs_parseRangeHeader`: it is refused as InvalidArgument, or not at all.
  - `parseRangeHeader_inside`: a range read from it is not empty and lies inside the object.
  - `parseRangeHeader_suffix`: `bytes=-n` is the last n bytes, or all there are.
  - `objectHeaders_fields`: the headers leave the answer's status and body alone.
-/
import S3lite.S3.Addressing
import S3lite.S3.Object
import S3lite.Server.Decimal

namespace S3lite

theorem toStr_of_visible {v : Bytes} (h : ∀ b ∈ v, 32 ≤ b ∧ b < 127) : toStr v = some v := by
  refine if_pos (List.all_eq_true.mpr fun b hb => ?_)
  simp [h b hb]

theorem headerString_none {headers : HeaderMap} {name : Str} (h : headers.get name = none) : headerString headers name = none := by
  rw [headerString, h]
  rfl

/-! ## Refusals -/

/-- Every error has this code. -/
def RefusesAs {α : Type} (code : S3ErrorCode) (x : Except S3Error α) : Prop := ∀ e, x = .error e → e.code = code

theorem refusesAs_ok {α : Type} {code : S3ErrorCode} {a : α} : RefusesAs code (.ok a : Except S3Error α) := by
  intro e h
  cases h

theorem refusesAs_error {α : Type} (e : S3Error) : RefusesAs e.code (.error e : Except S3Error α) := by
  intro e' h
  cases h
  rfl

theorem RefusesAs.bind {α β : Type} {code : S3ErrorCode} {x : Except S3Error α} {f : α → Except S3Error β}
    (hx : RefusesAs code x) (hf : ∀ a, RefusesAs code (f a)) : RefusesAs code (x >>= f) := by
  intro e h
  cases x with
  | ok a => exact hf a e h
  | error e' =>
    cases h
    exact hx _ rfl

theorem refusesAs_parseU64 (s msg : Str) : RefusesAs .invalidArgument (parseU64 s msg) := by
  unfold parseU64
  split
  · exact refusesAs_ok
  · exact refusesAs_error _

theorem refusesAs_parseRangeHeader (headers : HeaderMap) (size : Nat) :
    RefusesAs .invalidArgument (parseRangeHeader headers size) := by
  unfold parseRangeHeader
  dsimp only
  split
  · exact refusesAs_ok
  split
  · exact refusesAs_error _
  split
  · exact refusesAs_error _
  split
  · exact refusesAs_error _
  split
  · exact refusesAs_error _
  split
  · exact (refusesAs_parseU64 _ _).bind fun _ => (refusesAs_parseU64 _ _).bind fun _ => refusesAs_ok
  · exact (refusesAs_parseU64 _ _).bind fun _ => refusesAs_ok
  · refine (refusesAs_parseU64 _ _).bind fun _ => ?_
    split
    · exact refusesAs_ok
    · exact refusesAs_ok
  · exact refusesAs_error _

/-! ## Ranges -/

theorem parseRangeHeader_inside {headers : HeaderMap} {size first last : Nat}
    (h : parseRangeHeader headers size = .ok (some (first, last))) : first ≤ last ∧ last < size := by
  have hinside : ∀ bounds : Option (Nat × Nat), (∀ b ∈ bounds, b.2 ≤ size - 1) →
      bounds.filter (fun b => ¬ (size = 0 ∨ size - 1 < b.1 ∨ b.2 < b.1)) = some (first, last) → first ≤ last ∧ last < size := by
    intro bounds hle hfilter
    obtain ⟨hb, hp⟩ := Option.filter_eq_some_iff.mp hfilter
    have hlast := hle _ hb
    simp only [decide_eq_true_eq] at hp
    omega
  unfold parseRangeHeader at h
  dsimp only at h
  split at h
  · cases h
  split at h
  · cases h
  split at h
  · cases h
  split at h
  · cases h
  split at h
  · cases h
  rename_i startStr endStr _
  split at h
  · cases hs : parseU64 startStr (str "bad Range start") with
    | error e => rw [hs] at h; cases h
    | ok s =>
      cases he : parseU64 endStr (str "bad Range end") with
      | error e => rw [hs, he] at h; cases h
      | ok e =>
        rw [hs, he] at h
        exact hinside (some (s, min e (size - 1))) (fun b hb => by cases hb; exact Nat.min_le_right ..) (Except.ok.inj h)
  · cases hs : parseU64 startStr (str "bad Range start") with
    | error e => rw [hs] at h; cases h
    | ok s =>
      rw [hs] at h
      exact hinside (some (s, size - 1)) (fun b hb => by cases hb; exact le_rfl) (Except.ok.inj h)
  · cases hn : parseU64 endStr (str "bad suffix Range") with
    | error e => rw [hn] at h; cases h
    | ok n =>
      rw [hn] at h
      by_cases h0 : n = 0 ∨ size = 0
      · simp only [bind, Except.bind, if_pos h0] at h
        exact hinside none (fun b hb => by cases hb) (Except.ok.inj h)
      · simp only [bind, Except.bind, if_neg h0] at h
        exact hinside (some (size - n, size - 1)) (fun b hb => by cases hb; exact le_rfl) (Except.ok.inj h)
  · cases h

/-- The last `n` bytes. -/
theorem parseRangeHeader_suffix {headers : HeaderMap} {n : Nat} (h : headers.get (str "range") = some (str "bytes=-" ++ natStr n))
    (hpos : 1 ≤ n) (hn : n < 2 ^ 64) {size : Nat} (hsize : 0 < size) :
    parseRangeHeader headers size = .ok (some (size - n, size - 1)) := by
  obtain ⟨hne, hdigits⟩ := natStr_digits n
  have hvisible : toStr (str "bytes=-" ++ natStr n) = some (str "bytes=-" ++ natStr n) := by
    refine toStr_of_visible fun b hb => ?_
    rcases List.mem_append.mp hb with hb | hb
    · have hall : ∀ b ∈ str "bytes=-", 32 ≤ b ∧ b < 127 := by decide
      exact hall b hb
    · obtain ⟨hlo, hhi⟩ := hdigits b hb
      exact ⟨le_trans (by decide) hlo, lt_of_le_of_lt hhi (by decide)⟩
  have hspec : stripPrefix (str "bytes=") (str "bytes=-" ++ natStr n) = some (45 :: natStr n) :=
    stripPrefix_append (str "bytes=") (45 :: natStr n)
  have hcomma : (45 :: natStr n).contains (44 : UInt8) = false := by
    have hnot : (44 : UInt8) ∉ 45 :: natStr n := by
      intro hm
      rcases List.mem_cons.mp hm with hm | hm
      · cases hm
      · exact absurd (hdigits 44 hm).1 (by decide)
    simpa using hnot
  have hsplit : splitOnce 45 (45 :: natStr n) = some ([], natStr n) := splitOnce_append (p := []) List.not_mem_nil
  have hparse : parseU64 (natStr n) (str "bad suffix Range") = .ok n := by
    unfold parseU64
    rw [parseUnsigned_natStr hn]
  have hend : (natStr n).isEmpty = false := by simpa using hne
  unfold parseRangeHeader
  rw [h]
  have hsuffix : ¬ (n = 0 ∨ size = 0) := by omega
  simp only [hvisible, hspec, hcomma, hsplit, hend, hparse, bind, Except.bind, if_neg hsuffix]
  have hfilter : (some (size - n, size - 1)).filter (fun b => ¬ (size = 0 ∨ size - 1 < b.1 ∨ b.2 < b.1)) =
      some (size - n, size - 1) := Option.filter_eq_some_iff.mpr ⟨rfl, by simp only [decide_eq_true_eq]; omega⟩
  rw [hfilter]
  rfl

/-! ## The headers of the answer -/

/-- Setting headers leaves the rest of the response as it is. -/
theorem objectHeaders_fields (env : Env) (m : Manifest) (etag : Str) (range : Option (Nat × Nat)) (resp : Response) :
    (objectHeaders env m etag range resp).status = resp.status ∧ (objectHeaders env m etag range resp).body = resp.body := by
  have hmeta : ∀ (rows : List (Str × Str)) (r : Response),
      (rows.foldl (fun resp kv => resp.setHeader (str "x-amz-meta-" ++ kv.1) kv.2) r).status = r.status ∧
        (rows.foldl (fun resp kv => resp.setHeader (str "x-amz-meta-" ++ kv.1) kv.2) r).body = r.body := by
    intro rows
    induction rows with
    | nil => exact fun _ => ⟨rfl, rfl⟩
    | cons kv rows ih => exact fun r => ih _
  have hchecksum : ∀ (r : Response) (ac : Option AdditionalChecksum),
      (withChecksumHeader env r ac).status = r.status ∧ (withChecksumHeader env r ac).body = r.body := by
    intro r ac
    cases ac <;> exact ⟨rfl, rfl⟩
  unfold objectHeaders
  dsimp only
  obtain ⟨hstatus, hbody⟩ := hmeta m.userMetadata.rows _
  rw [hstatus, hbody]
  cases range with
  | none => exact hchecksum _ _
  | some r => exact ⟨rfl, rfl⟩

end S3lite
