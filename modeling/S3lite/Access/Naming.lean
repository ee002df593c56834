/-
  S3lite.Access.Naming — one key, named in three places: the path, the copy source and the
  prefix of a listing.

  The client percent-encodes the key in each of them (`encodeKey`). The copy source and the
  query are decoded; the path is not.
  - `copySource_encoded` and `prefix_encoded`: the copy source and the prefix give the key
    back, whichever UTF-8 string it is.
  - `stored_encoded`: the path stores the object under the encoded key.
  - `names_agree_iff`: the three agree exactly for the keys that encode as themselves.
  - `a_copy_misses_the_object`: a key with a space.
-/
import S3lite.S3.Dispatch
import S3lite.Base.Encoding
import S3lite.Safety.Pool
import S3lite.Ranges.Header

namespace S3lite

/-- RFC 3986 unreserved, or the slash. -/
def isKeySafe (b : UInt8) : Bool := isUnreserved b || b == 47

/-- The key as a client writes it in a URI. -/
def encodeKey (k : Str) : Str := percentEncode isKeySafe k

theorem decode_encodeKey {plus : Bool} {k : Str} (hk : IsUtf8 k) : percentDecode plus (encodeKey k) = k := by
  obtain ⟨cs, rfl⟩ := hk
  rw [percentDecode, encodeKey, percentBytes_percentEncode rfl fun _ => rfl, fromUtf8Lossy_utf8]

theorem encodeKey_eq_self {k : Str} : encodeKey k = k ↔ ∀ b ∈ k, isUnreserved b = true ∨ b = 47 := by
  simp [encodeKey, percentEncode_eq_self, isKeySafe]

/-- Nothing that separates the parts of a URI or of a copy source. -/
theorem encodeKey_not_mem {c : UInt8} (hs : isKeySafe c = false) (h37 : c ≠ 37) (hx : ∀ n < 16, c ≠ hexUpperDigit n)
    (k : Str) : c ∉ encodeKey k := not_mem_percentEncode hs h37 hx k

theorem isKeySafe_visible {b : UInt8} (h : isKeySafe b = true) : 32 ≤ b ∧ b < 127 := by
  simp only [isKeySafe, isUnreserved, Bool.or_eq_true, Bool.and_eq_true, decide_eq_true_eq, beq_iff_eq,
    UInt8.le_iff_toNat_le, ← UInt8.toNat_inj, UInt8.reduceToNat] at h
  rw [UInt8.le_iff_toNat_le, UInt8.lt_iff_toNat_lt]
  show 32 ≤ b.toNat ∧ b.toNat < 127
  omega

theorem hexUpperDigit_visible : ∀ n < 16, 32 ≤ hexUpperDigit n ∧ hexUpperDigit n < 127 := by decide

theorem encodeKey_visible {k : Str} : ∀ b ∈ encodeKey k, 32 ≤ b ∧ b < 127 := by
  intro b hb
  rcases mem_percentEncode hb with h | rfl | ⟨n, hn, rfl⟩
  · exact isKeySafe_visible h
  · decide
  · exact hexUpperDigit_visible n hn

/-! ## Bucket names -/

theorem isUtf8_of_ascii {s : Str} (h : ∀ b ∈ s, b < 0x80) : IsUtf8 s := by
  induction s with
  | nil => exact ⟨[], rfl⟩
  | cons b s ih =>
    obtain ⟨cs, hcs⟩ := ih fun c hc => h c (List.mem_cons_of_mem _ hc)
    refine ⟨Char.ofUInt8 b :: cs, ?_⟩
    rw [List.flatMap_cons, utf8EncodeChar_ascii (h b (List.mem_cons_self ..)), ← hcs]
    rfl

theorem isKeySafe_of_name {b : UInt8} (h : isAlnum b = true ∨ b = 45) : isKeySafe b = true := by
  rcases h with h | rfl
  · simp only [isAlnum, Bool.or_eq_true, Bool.and_eq_true] at h
    simp only [isKeySafe, isUnreserved, Bool.or_eq_true, Bool.and_eq_true]
    tauto
  · rfl

/-- A bucket name is written as it is. -/
theorem encodeKey_bucket {b : Str} (hb : ValidBucketName b) : encodeKey b = b :=
  percentEncode_eq_self.mpr fun c hc => isKeySafe_of_name (hb.chars c hc)

theorem decode_bucket {b : Str} (hb : ValidBucketName b) : percentDecode false b = b := by
  have hu : IsUtf8 b := isUtf8_of_ascii fun c hc =>
    lt_trans (isKeySafe_visible (isKeySafe_of_name (hb.chars c hc))).2 (by decide)
  have h : percentDecode false (encodeKey b) = b := decode_encodeKey hu
  rwa [encodeKey_bucket hb] at h

/-! ## The copy source -/

/-- `x-amz-copy-source: b/enc(k)` -/
def copySourceText (b k : Str) : Str := b ++ 47 :: encodeKey k

theorem copySource_encoded {b k : Str} (hb : ValidBucketName b) (hk : IsUtf8 k) (hne : k ≠ []) :
    parseCopySource (copySourceText b k) = .ok ⟨b, k, none⟩ := by
  have hstrip : stripPrefix (str "/") (copySourceText b k) = none := by
    cases b with
    | nil => exact absurd rfl hb.ne_nil
    | cons c b =>
      have hc : (47 : UInt8) ≠ c := fun e => hb.no_slash (e ▸ List.mem_cons_self ..)
      refine if_neg fun h => hc ?_
      exact (List.cons_prefix_cons.mp h).1
  have hmark : (63 : UInt8) ∉ copySourceText b k := by
    intro h
    rcases List.mem_append.mp h with h | h
    · exact hb.not_mem rfl (by decide) h
    · rcases List.mem_cons.mp h with h | h
      · exact absurd h (by decide)
      · exact encodeKey_not_mem rfl (by decide) (by decide) k h
  have hkey : (encodeKey k).isEmpty = false := by
    rw [List.isEmpty_eq_false_iff]
    exact fun h => hne (percentEncode_eq_nil.mp h)
  have hbucket : b.isEmpty = false := List.isEmpty_eq_false_iff.mpr hb.ne_nil
  simp only [parseCopySource, hstrip, Option.getD_none, splitOnce_none hmark]
  simp only [copySourceText, splitOnce_append hb.no_slash, hkey, hbucket, decode_bucket hb, decode_encodeKey hk]
  rfl

theorem copySourceHeader_encoded {b k : Str} (hb : ValidBucketName b) (hk : IsUtf8 k) (hne : k ≠ []) {headers : HeaderMap}
    (hh : headers.get (str "x-amz-copy-source") = some (copySourceText b k)) :
    parseCopySourceHeader headers = .ok ⟨b, k, none⟩ := by
  have hv : ∀ c ∈ copySourceText b k, 32 ≤ c ∧ c < 127 := by
    intro c hc
    rcases List.mem_append.mp hc with hc | hc
    · exact isKeySafe_visible (isKeySafe_of_name (hb.chars c hc))
    · rcases List.mem_cons.mp hc with rfl | hc
      · decide
      · exact encodeKey_visible c hc
  rw [parseCopySourceHeader, headerString, hh, Option.bind_some, toStr_of_visible hv]
  exact copySource_encoded hb hk hne

/-! ## The prefix -/

/-- `prefix=enc(k)` -/
def prefixQuery (k : Str) : Str := str "prefix=" ++ encodeKey k

theorem prefix_encoded {k : Str} (hk : IsUtf8 k) : (parseQuery (prefixQuery k)).getString (str "prefix") = k := by
  have hamp : (38 : UInt8) ∉ prefixQuery k := by
    intro h
    rcases List.mem_append.mp h with h | h
    · exact absurd h (by decide)
    · exact encodeKey_not_mem rfl (by decide) (by decide) k h
  have hsplit : splitOnce 61 (prefixQuery k) = some (str "prefix", encodeKey k) :=
    splitOnce_append (p := str "prefix") (by decide)
  have hname : percentDecode true (str "prefix") = str "prefix" := by decide
  have hne : (prefixQuery k).isEmpty = false := rfl
  simp only [parseQuery, hne, splitByte_none hamp, List.foldl_cons, List.foldl_nil, hsplit, Option.getD_some, hname,
    decode_encodeKey hk]
  simp [Params.getString]

/-! ## The path -/

/-- `PUT /b/enc(k)` -/
def storeRequest (b k : Str) (headers : HeaderMap) (body : Bytes) : HttpRequest :=
  ⟨.put, 47 :: (b ++ 47 :: encodeKey k), none, headers, body⟩

/-- A path-style PUT of a body within the limit. -/
structure PlainPut (config : Settings) (headers : HeaderMap) (body : Bytes) : Prop where
  pathStyle : hostedBucket (headerString headers (str "host")) config = none
  noCopy : isCopy headers = false
  room : body.length ≤ config.maxSignedBodyBytes

instance instDecidablePlainPut (config : Settings) (headers : HeaderMap) (body : Bytes) :
    Decidable (PlainPut config headers body) :=
  decidable_of_iff
    (hostedBucket (headerString headers (str "host")) config = none ∧ isCopy headers = false ∧
      body.length ≤ config.maxSignedBodyBytes)
    ⟨fun h => ⟨h.1, h.2.1, h.2.2⟩, fun h => ⟨h.1, h.2, h.3⟩⟩

theorem stored_encoded {config : Settings} {b k : Str} {headers : HeaderMap} {body : Bytes} (hb : ValidBucketName b)
    (hne : k ≠ []) (hp : PlainPut config headers body) :
    routed config (storeRequest b k headers body) = .ok (.request (.putObject b (encodeKey k) headers body)) := by
  have hkey : nonEmpty (encodeKey k) = some (encodeKey k) := by
    have he : encodeKey k ≠ [] := fun h => hne (percentEncode_eq_nil.mp h)
    simp [nonEmpty, he]
  have hext : extract (storeRequest b k headers body).host (storeRequest b k headers body).path config =
      .ok ⟨some b, some (encodeKey k)⟩ := by
    rw [← hkey]
    exact extract_pathStyle hb hp.pathStyle
  have hlen : ¬ config.maxSignedBodyBytes < (storeRequest b k headers body).body.length := not_lt.mpr hp.room
  have hroute : routePutObject b (encodeKey k) [] headers body = .ok (.putObject b (encodeKey k) headers body) := by
    simp [routePutObject, queryValue, hasQueryFlag, hp.noCopy]
  show (extract _ _ config >>= fun a => _) = _
  rw [hext]
  show (if _ then _ else (routePutObject b (encodeKey k) [] headers body).map _) = _
  rw [if_neg hlen, hroute]
  rfl

/-! ## Agreement -/

/-- The key stored under, the key copied from and the prefix listed are one. -/
def NamesAgree (config : Settings) (b k : Str) (headers : HeaderMap) (body : Bytes) : Prop :=
  ∃ key, routed config (storeRequest b k headers body) = .ok (.request (.putObject b key headers body)) ∧
    (∀ headers' : HeaderMap, headers'.get (str "x-amz-copy-source") = some (copySourceText b k) →
      parseCopySourceHeader headers' = .ok ⟨b, key, none⟩) ∧
    (parseQuery (prefixQuery k)).getString (str "prefix") = key

theorem names_agree_iff {config : Settings} {b k : Str} {headers : HeaderMap} {body : Bytes} (hb : ValidBucketName b)
    (hk : IsUtf8 k) (hne : k ≠ []) (hp : PlainPut config headers body) :
    NamesAgree config b k headers body ↔ ∀ c ∈ k, isUnreserved c = true ∨ c = 47 := by
  rw [← encodeKey_eq_self]
  constructor
  · rintro ⟨key, hstored, -, hlisted⟩
    rw [stored_encoded hb hne hp] at hstored
    injection hstored with hstored
    injection hstored with hstored
    injection hstored with _ hkey
    rw [hkey, ← hlisted, prefix_encoded hk]
  · intro he
    refine ⟨k, ?_, fun headers' hh => copySourceHeader_encoded hb hk hne hh, prefix_encoded hk⟩
    rw [stored_encoded hb hne hp, he]

theorem names_agree_plain_key :
    NamesAgree (.new (str "us-east-1") (str "ak") (str "sk")) (str "bkt") (str "photos/a-1.jpg") [] [] ↔
      ∀ c ∈ str "photos/a-1.jpg", isUnreserved c = true ∨ c = 47 :=
  names_agree_iff (by rfl) (isUtf8_of_ascii (by decide)) (by decide) (by decide)

/-- The client that stores the key `a b` and copies it: the object is under `a%20b`, and the
    copy does not find it. -/
theorem a_copy_misses_the_object :
    let config := Settings.new (str "us-east-1") (str "ak") (str "sk")
    let send (req : HttpRequest) (w : World) := (dispatch sampleEnv config req).run (exec sampleEnv) w
    let made := (send ⟨.put, str "/bkt", none, [], []⟩ .empty).2
    let stored := send (storeRequest (str "bkt") (str "a b") [] (str "a")) made
    let copied := send ⟨.put, str "/bkt/copy", none, [(str "x-amz-copy-source", copySourceText (str "bkt") (str "a b"))], []⟩ stored.2
    stored.1.map (·.status) = some 200 ∧ copied.1.map (·.status) = some 404 ∧
      (handleGetLatestVersion stored.2.db (str "bkt") (str "a%20b")).isSome = true ∧
      ¬ NamesAgree config (str "bkt") (str "a b") [] [] := by
  refine ⟨by rfl, by rfl, by rfl, ?_⟩
  rintro ⟨key, hstored, -, hlisted⟩
  rw [stored_encoded (by rfl) (by decide) (by decide)] at hstored
  injection hstored with hstored
  injection hstored with hstored
  injection hstored with _ hkey
  exact absurd (hkey.trans hlisted.symm) (by decide)

end S3lite
