/-
  S3lite.Access.Signer — presigned URLs of a signer that follows the SigV4 specification.

  A signer writes its parameters once each under their exact names (`SignerUrl`); `verify`
  looks a name up whatever its case, and takes the first in byte order (`matched`).
  - `canonical_request_iff`: the texts are the same, and every URL signed over the one is
    accepted, exactly when the request is plain and a signer's parameters are read back.
  - `SignerUrl.readsBack`: they are where no other parameter is named like one of them.
  - `a_run_of_spaces_is_refused`: a header value with two spaces in it.
-/
import S3lite.Access.SpecText
import S3lite.Access.Window
import S3lite.Server.Decimal

namespace S3lite

/-! ## Signing -/

/-- What a signer chooses: the time, as it writes it, the region and the lifetime in seconds. -/
structure Signing where
  date : Str
  region : Str
  expires : Nat

namespace Signing

/-- `yyyyMMdd`, region, service and terminator. -/
def scope (s : Signing) : List Str := [s.date.take 8, s.region, str "s3", str "aws4_request"]

/-- The parameters of the signature, less the signature itself. -/
def params (s : Signing) (accessKeyId : Str) (signed : List Str) : List (Str × Str) :=
  [(str "X-Amz-Algorithm", str "AWS4-HMAC-SHA256"),
    (str "X-Amz-Credential", (str "/").intercalate (accessKeyId :: s.scope)),
    (str "X-Amz-Date", s.date),
    (str "X-Amz-Expires", natStr s.expires),
    (str "X-Amz-SignedHeaders", (str ";").intercalate signed)]

/-- The signature of a canonical request: the key is derived along the scope. -/
def sign (s : Signing) (cr : Crypto) (secretAccessKey canonical : Str) : Str :=
  let stringToSign := (str "\n").intercalate
    [str "AWS4-HMAC-SHA256", s.date, (str "/").intercalate s.scope, hexEncode (cr.sha256 canonical)]
  let key := s.scope.foldl cr.hmacSha256 (str "AWS4" ++ secretAccessKey)
  hexEncode (cr.hmacSha256 key stringToSign)

end Signing

/-- The parameter is in the URL, and no other has its name. -/
def Carries (params : List (Str × Str)) (kv : Str × Str) : Prop := kv ∈ params ∧ ∀ x ∈ params, x.1 = kv.1 → x = kv

instance instDecidableCarries (params : List (Str × Str)) (kv : Str × Str) : Decidable (Carries params kv) :=
  inferInstanceAs (Decidable (kv ∈ params ∧ ∀ x ∈ params, x.1 = kv.1 → x = kv))

/-- The parameters of a signer for an access key. -/
structure SignerUrl (accessKeyId : Str) (s : Signing) (signed : List Str) (params : List (Str × Str)) : Prop where
  date : s.date.length = 16 ∧ ∀ b ∈ s.date, 32 < b ∧ b < 127 ∧ b ≠ 47
  region : IsUtf8 s.region ∧ 47 ∉ s.region
  accessKey : IsUtf8 accessKeyId ∧ 47 ∉ accessKeyId
  expires : 1 ≤ s.expires ∧ s.expires ≤ 604800
  names : signed ≠ [] ∧ ∀ name ∈ signed, isHeaderName name = true ∧ toAsciiLower name = name
  own : ∀ kv ∈ s.params accessKeyId signed, Carries params kv

/-- A URL that a signer with the root key made for a request. -/
structure Presigns (cr : Crypto) (rootKey : RootKey) (s : Signing) (method : Method) (path : Str) (headers : HeaderMap)
    (signed : List Str) (params : List (Str × Str)) : Prop extends SignerUrl rootKey.accessKeyId s signed params where
  signature : ∃ text, specRequest method path params headers signed = some text ∧
    Carries params (str "X-Amz-Signature", s.sign cr rootKey.secretAccessKey text)

/-! ### What the verifier reads -/

/-- The parameter that a name is looked up as: of those named like it but for their case, the
    first in byte order of the names, as it was given last. -/
def matched (params : List (Str × Str)) (name : Str) : Option (Str × Str) :=
  params.foldl (fun found kv => if eqIgnoreAsciiCase kv.1 name = true ∧ found.all (fun f => decide (kv.1 ≤ f.1)) = true then some kv
    else found) none

/-- The value looked up reads as `x`. -/
def LooksUp {α : Type} (params : List (Str × Str)) (name : Str) (read : Str → Except S3Error α) (x : α) : Prop :=
  ∃ kv, matched params name = some kv ∧ read (sigv4Encode kv.2) = .ok x

/-- The signer's parameters say under their names, as these are looked up, what it meant by them:
    the key and its scope; the date; the lifetime, or one that the clock skew cuts short; and
    signed headers that make the same text. -/
structure ReadsBack (method : Method) (path : Str) (headers : HeaderMap) (accessKeyId : Str) (s : Signing) (signed : List Str)
    (params : List (Str × Str)) : Prop where
  algorithm : LooksUp params (str "X-Amz-Algorithm") .ok algorithm
  credential : LooksUp params (str "X-Amz-Credential") parseCredential ⟨accessKeyId, s.date.take 8, s.region⟩
  date : LooksUp params (str "X-Amz-Date") (fun raw => .ok (percentDecode false raw)) s.date
  expires : ∃ n, LooksUp params (str "X-Amz-Expires") parseExpires n ∧ (n = s.expires ∨ clockSkewSecs ≤ n ∧ n < s.expires)
  signedHeaders : ∃ names, LooksUp params (str "X-Amz-SignedHeaders") (fun raw => .ok (signedHeadersOf raw)) names ∧ names ≠ [] ∧
    builtRequest method path (urlQuery params) headers names = builtRequest method path (urlQuery params) headers signed

theorem parseQueryPairs_writeQuery {pairs : List (Str × Str)} (h : ∀ kv ∈ pairs, PlainPair kv) :
    parseQueryPairs (writeQuery pairs) = pairs.foldl (fun map kv => map.insert kv.1 kv.2) .empty := by
  have hpair : ∀ kv ∈ pairs, queryPair (pairText 61 kv) = kv := fun kv hkv => by
    rw [queryPair, pairText, splitOnce_append (h kv hkv).name]
    rfl
  have hfold : ∀ t : Table Str Str, (pairs.map (pairText 61)).foldl (fun map token =>
      if token.isEmpty then map else map.insert (queryPair token).1 (queryPair token).2) t =
        pairs.foldl (fun map kv => map.insert kv.1 kv.2) t := by
    clear h
    induction pairs with
    | nil => exact fun _ => rfl
    | cons kv pairs ih =>
      intro t
      have hne : (pairText 61 kv).isEmpty = false := by simp [pairText]
      rw [List.map_cons, List.foldl_cons, List.foldl_cons, hne, hpair kv (List.mem_cons_self ..)]
      exact ih (fun x hx => hpair x (List.mem_cons_of_mem _ hx)) _
  unfold parseQueryPairs writeQuery
  cases pairs with
  | nil => rfl
  | cons kv pairs =>
    have htoken : ∀ p ∈ (kv :: pairs).map (pairText 61), 38 ∉ p := by
      intro p hp
      obtain ⟨x, hx, rfl⟩ := List.mem_map.mp hp
      exact (h x hx).token.1
    have hsplit := splitByte_intercalate (show (kv :: pairs).map (pairText 61) ≠ [] from List.cons_ne_nil _ _) htoken
    rw [show str "&" = [38] by rfl, hsplit, hfold]

/-- A name is looked up by the first row that is named like it. -/
theorem getRequired_urlQuery {name : Str} (hname : ∀ c ∈ name, isUnreserved c = true) (params : List (Str × Str)) :
    getRequired (parseQueryPairs (urlQuery params)) name = match matched params name with
      | some kv => .ok (sigv4Encode kv.2)
      | none => .error (malformed (str "presigned URL is missing " ++ name)) := by
  have hplain : ∀ kv ∈ params.map encodePair, PlainPair kv := by
    intro kv hkv
    obtain ⟨x, -, rfl⟩ := List.mem_map.mp hkv
    exact encodePair_plain x
  have hself : ∀ {k : Str}, eqIgnoreAsciiCase k name = true → sigv4Encode k = k := fun h =>
    sigv4Encode_like hname (of_decide_eq_true h)
  have hfold : ∀ (l : List (Str × Str)) (t : Table Str Str) (found : Option (Str × Str)),
      (∀ kv ∈ found, eqIgnoreAsciiCase kv.1 name = true) →
      t.rows.find? (fun r => eqIgnoreAsciiCase r.1 name) = found.map encodePair →
      ((l.map encodePair).foldl (fun map kv => map.insert kv.1 kv.2) t).rows.find? (fun r => eqIgnoreAsciiCase r.1 name) =
        (l.foldl (fun found kv => if eqIgnoreAsciiCase kv.1 name = true ∧ found.all (fun f => decide (kv.1 ≤ f.1)) = true then some kv
          else found) found).map encodePair := by
    intro l
    induction l with
    | nil => exact fun _ _ _ h => h
    | cons kv l ih =>
      intro t found hlike h
      rw [List.map_cons, List.foldl_cons, List.foldl_cons]
      have hcase : eqIgnoreAsciiCase (encodePair kv).1 name = eqIgnoreAsciiCase kv.1 name := encode_ignoreCase hname kv.1
      refine ih _ _ ?_ ?_
      · intro x hx
        split at hx
        · rename_i hkv
          cases hx
          exact hkv.1
        · exact hlike x hx
      · rw [t.find?_insert (fun k => eqIgnoreAsciiCase k name), h, hcase]
        by_cases hkv : eqIgnoreAsciiCase kv.1 name = true
        · have hall : (found.map encodePair).all (fun r => decide ((encodePair kv).1 ≤ r.1)) =
              found.all fun f => decide (kv.1 ≤ f.1) := by
            cases found with
            | none => rfl
            | some f =>
              show decide (sigv4Encode kv.1 ≤ sigv4Encode f.1) = _
              rw [hself hkv, hself (hlike f rfl)]
              rfl
          rw [hall]
          split <;> rfl
        · rw [if_neg fun hc => hkv hc.1, if_neg fun hc => hkv hc.1]
  have hfound := hfold params .empty none (fun _ hx => by cases hx) rfl
  rw [S3lite.getRequired, urlQuery, parseQueryPairs_writeQuery hplain, hfound]
  unfold matched
  split
  · rename_i kv hkv
    obtain ⟨x, hx, rfl⟩ := Option.map_eq_some_iff.mp hkv
    rw [hx]
    rfl
  · rename_i hnone
    rw [Option.map_eq_none_iff.mp hnone]

theorem reads_urlQuery {α : Type} {params : List (Str × Str)} {name : Str} (hname : ∀ c ∈ name, isUnreserved c = true)
    {read : Str → Except S3Error α} {x : α} : Reads (urlQuery params) name read x ↔ LooksUp params name read x := by
  unfold Reads LooksUp
  rw [getRequired_urlQuery hname]
  cases matched params name with
  | none => simp
  | some kv => simp

theorem decode_sigv4Encode {s : Str} (hs : IsUtf8 s) : percentDecode false (sigv4Encode s) = s := by
  obtain ⟨cs, rfl⟩ := hs
  rw [percentDecode, sigv4Encode, percentBytes_percentEncode rfl fun h => (by cases h), fromUtf8Lossy_utf8]

theorem IsUtf8.append {s t : Str} (hs : IsUtf8 s) (ht : IsUtf8 t) : IsUtf8 (s ++ t) := by
  obtain ⟨cs, rfl⟩ := hs
  obtain ⟨ds, rfl⟩ := ht
  exact ⟨cs ++ ds, List.flatMap_append.symm⟩

theorem isUtf8_intercalate {sep : Str} {l : List Str} (hsep : IsUtf8 sep) (h : ∀ p ∈ l, IsUtf8 p) :
    IsUtf8 (sep.intercalate l) := by
  induction l with
  | nil => exact ⟨[], rfl⟩
  | cons a l ih =>
    cases l with
    | nil =>
      rw [List.intercalate_singleton]
      exact h a (List.mem_cons_self ..)
    | cons b l =>
      rw [List.intercalate_cons_cons]
      exact ((h a (List.mem_cons_self ..)).append hsep).append (ih fun p hp => h p (List.mem_cons_of_mem _ hp))

theorem headerName_visible {name : Str} (h : isHeaderName name = true) :
    name ≠ [] ∧ ∀ c ∈ name, (32 < c ∧ c < 127) ∧ c ≠ 59 := by
  have hbyte : ∀ n < 256, isHeaderName [UInt8.ofNat n] = true →
      (32 < UInt8.ofNat n ∧ UInt8.ofNat n < 127) ∧ UInt8.ofNat n ≠ 59 := by
    decide +kernel
  unfold isHeaderName at h
  obtain ⟨hne, hall⟩ := Bool.and_eq_true_iff.mp h
  refine ⟨by simpa using hne, fun c hc => ?_⟩
  have := hbyte c.toNat c.toNat_lt
  rw [UInt8.ofNat_toNat] at this
  refine this ?_
  unfold isHeaderName
  have hc := List.all_eq_true.mp hall c hc
  simpa using hc

theorem digit_unreserved {c : UInt8} (h : 48 ≤ c ∧ c ≤ 57) : isUnreserved c = true := by
  simp [isUnreserved, h.1, h.2]

theorem hexEncode_unreserved (b : Bytes) : ∀ c ∈ hexEncode b, isUnreserved c = true := by
  have hdigit : ∀ n < 16, isUnreserved (hexDigit n) = true := by decide
  intro c hc
  obtain ⟨x, -, hx⟩ := List.mem_flatMap.mp hc
  have hlt := x.toNat_lt
  simp only [List.mem_cons, List.not_mem_nil, or_false] at hx
  rcases hx with rfl | rfl
  · exact hdigit _ (by omega)
  · exact hdigit _ (by omega)

/-- The list of signed headers is read back. -/
theorem signedHeadersOf_names {signed : List Str} (hne : signed ≠ [])
    (h : ∀ name ∈ signed, isHeaderName name = true ∧ toAsciiLower name = name) :
    signedHeadersOf (sigv4Encode ((str ";").intercalate signed)) = signed := by
  have hutf8 : IsUtf8 ((str ";").intercalate signed) := by
    refine isUtf8_intercalate (isUtf8_of_ascii (by decide)) fun name hn => isUtf8_of_ascii fun b hb => ?_
    have hlt := ((headerName_visible (h name hn).1).2 b hb).1.2
    exact hlt.trans (by decide)
  have hsplit : splitByte 59 ((str ";").intercalate signed) = signed := by
    rw [show str ";" = [59] by rfl]
    exact splitByte_intercalate hne fun name hn hc => ((headerName_visible (h name hn).1).2 59 hc).2 rfl
  have hmap : signed.map (fun s => toAsciiLower (trim s)) = signed := by
    refine (List.map_congr_left fun name hn => ?_).trans (List.map_id signed)
    rw [trim_visible fun b hb => ((headerName_visible (h name hn).1).2 b hb).1]
    exact (h name hn).2
  rw [signedHeadersOf, decode_sigv4Encode hutf8, hsplit, hmap, List.filter_eq_self]
  intro name hn
  simpa using (headerName_visible (h name hn).1).1

theorem parseExpires_natStr {n : Nat} (h1 : 1 ≤ n) (h2 : n ≤ 604800) : parseExpires (natStr n) = .ok n := by
  obtain ⟨hne, hdigits⟩ := natStr_digits n
  have hparse : parseI64 (natStr n) = some (n : Int) := by
    unfold parseI64
    split
    · rename_i t hs
      exact absurd (hdigits 45 (hs ▸ List.mem_cons_self ..)).1 (by decide)
    · rename_i t _ hs
      exact absurd (hdigits 45 (hs ▸ List.mem_cons_self ..)).1 (by decide)
    · rw [parseUnsigned_natStr (by omega)]
      rfl
  rw [parseExpires, hparse]
  exact if_pos ⟨by omega, by unfold maxExpires; omega⟩

/-- The signer's signature is the one the verifier computes of the same text. -/
theorem Signing.sign_eq (s : Signing) (cr : Crypto) (config : Settings) (text : Str) :
    signature cr config ⟨config.rootKey.accessKeyId, s.date.take 8, s.region⟩ s.date text =
      s.sign cr config.rootKey.secretAccessKey text := by
  have hscope : s.date.take 8 ++ str "/" ++ s.region ++ str "/s3/aws4_request" = (str "/").intercalate s.scope := by
    simp only [Signing.scope, List.intercalate_cons_cons, List.intercalate_singleton, List.append_assoc]
    rfl
  simp only [signature, Signing.sign, hscope]
  rfl

theorem matched_of_only {params : List (Str × Str)} {kv : Str × Str} (h : kv ∈ params)
    (honly : ∀ x ∈ params, eqIgnoreAsciiCase x.1 kv.1 = true → x = kv) : matched params kv.1 = some kv := by
  have hfold : ∀ (l : List (Str × Str)) (found : Option (Str × Str)), (∀ x ∈ l, eqIgnoreAsciiCase x.1 kv.1 = true → x = kv) →
      (∀ f ∈ found, f = kv) → kv ∈ l ∨ found = some kv →
      l.foldl (fun found x => if eqIgnoreAsciiCase x.1 kv.1 = true ∧ found.all (fun f => decide (x.1 ≤ f.1)) = true then some x
        else found) found = some kv := by
    intro l
    induction l with
    | nil => exact fun found _ _ h => h.resolve_left List.not_mem_nil
    | cons x l ih =>
      intro found hl hfound h
      have hrest := fun y hy => hl y (List.mem_cons_of_mem _ hy)
      rw [List.foldl_cons]
      by_cases hx : eqIgnoreAsciiCase x.1 kv.1 = true
      · obtain rfl := hl x (List.mem_cons_self ..) hx
        have hall : found.all (fun f => decide (x.1 ≤ f.1)) = true := by
          rw [Option.all_eq_true]
          intro f hf
          rw [hfound f hf]
          exact decide_eq_true le_rfl
        rw [if_pos ⟨hx, hall⟩]
        exact ih _ hrest (fun f hf => by cases hf; rfl) (Or.inr rfl)
      · rw [if_neg fun hc => hx hc.1]
        refine ih _ hrest hfound (h.imp_left fun hmem => ?_)
        rcases List.mem_cons.mp hmem with rfl | hmem
        · simp [eqIgnoreAsciiCase] at hx
        · exact hmem
  exact hfold params none honly (fun _ hf => by cases hf) (Or.inl h)

namespace SignerUrl

variable {accessKeyId : Str} {s : Signing} {signed : List Str} {params : List (Str × Str)}

theorem parseCredential_eq (h : SignerUrl accessKeyId s signed params) :
    parseCredential (sigv4Encode ((str "/").intercalate (accessKeyId :: s.scope))) = .ok ⟨accessKeyId, s.date.take 8, s.region⟩ := by
  have hdate : ∀ b ∈ s.date.take 8, b < 0x80 ∧ b ≠ 47 := fun b hb => by
    obtain ⟨-, hlt, hne⟩ := h.date.2 b (List.mem_of_mem_take hb)
    exact ⟨hlt.trans (by decide), hne⟩
  have hpieces : ∀ p ∈ accessKeyId :: s.scope, IsUtf8 p ∧ 47 ∉ p := by
    simp only [Signing.scope, List.forall_mem_cons, List.not_mem_nil, false_implies, implies_true, and_true]
    refine ⟨h.accessKey, ⟨isUtf8_of_ascii fun b hb => (hdate b hb).1, fun hc => (hdate 47 hc).2 rfl⟩, h.region, ?_, ?_⟩
    · exact ⟨isUtf8_of_ascii (by decide), by decide⟩
    · exact ⟨isUtf8_of_ascii (by decide), by decide⟩
  have hslash : IsUtf8 (str "/") := isUtf8_of_ascii (by decide)
  have hdecode := decode_sigv4Encode (isUtf8_intercalate hslash
    fun p hp => (hpieces p hp).1)
  have hsplit : splitByte 47 ((str "/").intercalate (accessKeyId :: s.scope)) = accessKeyId :: s.scope := by
    rw [show str "/" = [47] by rfl]
    exact splitByte_intercalate (List.cons_ne_nil _ _) fun p hp => (hpieces p hp).2
  rw [parseCredential, hdecode, hsplit]
  rfl

theorem datePart_eq (h : SignerUrl accessKeyId s signed params) : datePart s.date = s.date.take 8 := by
  refine if_pos ⟨by rw [h.date.1]; decide, ?_⟩
  cases hd : (s.date.drop 8).head? with
  | none => rfl
  | some b =>
    have hb := h.date.2 b (List.mem_of_mem_drop (List.mem_of_mem_head? hd))
    have hlt : b.toNat < 127 := UInt8.lt_iff_toNat_lt.mp hb.2.1
    have hnot : ¬ 0x80 ≤ b := fun hle => by
      have := UInt8.le_iff_toNat_le.mp hle
      exact absurd (lt_of_le_of_lt this hlt) (by decide)
    simp [isContinuation, hnot]

/-- They do where no other parameter is named like one of the signer's. -/
theorem readsBack (h : SignerUrl accessKeyId s signed params)
    (honly : ∀ kv ∈ s.params accessKeyId signed, ∀ x ∈ params, eqIgnoreAsciiCase x.1 kv.1 = true → x.1 = kv.1)
    (method : Method) (path : Str) (headers : HeaderMap) : ReadsBack method path headers accessKeyId s signed params := by
  have hown : ∀ kv ∈ s.params accessKeyId signed, matched params kv.1 = some kv := fun kv hkv =>
    matched_of_only (h.own kv hkv).1 fun x hx hlike => (h.own kv hkv).2 x hx (honly kv hkv x hx hlike)
  simp only [Signing.params, List.forall_mem_cons, List.not_mem_nil, false_implies, implies_true, and_true] at hown
  obtain ⟨halg, hcred, hdate, hexp, hnames⟩ := hown
  have hplain : ∀ {t : Str}, (∀ c ∈ t, isUnreserved c = true) → sigv4Encode t = t := percentEncode_eq_self.mpr
  constructor
  case algorithm => exact ⟨_, halg, congrArg Except.ok (hplain (by decide))⟩
  case credential => exact ⟨_, hcred, h.parseCredential_eq⟩
  case date =>
    exact ⟨_, hdate, congrArg Except.ok (decode_sigv4Encode (isUtf8_of_ascii fun b hb => (h.date.2 b hb).2.1.trans (by decide)))⟩
  case expires =>
    refine ⟨s.expires, ⟨_, hexp, ?_⟩, Or.inl rfl⟩
    rw [hplain fun c hc => digit_unreserved ((natStr_digits _).2 c hc)]
    exact parseExpires_natStr h.expires.1 h.expires.2
  case signedHeaders =>
    exact ⟨signed, ⟨_, hnames, congrArg Except.ok (signedHeadersOf_names h.names.1 h.names.2)⟩, h.names.1, rfl⟩

end SignerUrl

theorem Reads.unique {α : Type} {query name : Str} {read : Str → Except S3Error α} {x y : α} (h : Reads query name read x)
    (h' : Reads query name read y) : x = y := by
  obtain ⟨raw, hraw, hx⟩ := h
  obtain ⟨raw', hraw', hy⟩ := h'
  obtain rfl : raw = raw' := Except.ok.inj (hraw.symm.trans hraw')
  exact Except.ok.inj (hx.symm.trans hy)

/-- The signature is looked up where nothing else is taken for it. -/
theorem PlainRequest.signature {params : List (Str × Str)} {headers : HeaderMap} {signed : List Str} (h : PlainRequest params headers signed)
    {b : Bytes} (hsig : Carries params (str "X-Amz-Signature", hexEncode b)) :
    LooksUp params (str "X-Amz-Signature") .ok (hexEncode b) := by
  refine ⟨_, matched_of_only hsig.1 fun x hx hlike => hsig.2 x hx (h.named x hx hlike), ?_⟩
  exact congrArg Except.ok (percentEncode_eq_self.mpr (hexEncode_unreserved b))

theorem seconds_mono {a b : Int} (h : a ≤ b) : seconds a ≤ seconds b := Int.mul_le_mul_of_nonneg_right h (by decide)

theorem checkTime_eq_ok {signedAt now : Time} {expires : Int} : checkTime signedAt now expires = .ok () ↔
    signedAt + seconds expires ≤ maxTime ∧ |signedAt - now| ≤ seconds 300 ∧ now ≤ signedAt + seconds expires := by
  by_cases hmax : signedAt + seconds expires ≤ maxTime
  · rw [checkTime_ok_iff hmax]
    exact (and_iff_right hmax).symm
  · refine iff_of_false (fun h => ?_) fun h => hmax h.1
    unfold checkTime at h
    split at h
    · cases h
    · rw [if_pos (show maxTime < signedAt + expires * nanosPerSec from not_le.mp hmax)] at h
      cases h

/-- A lifetime that the clock skew cuts short makes no difference. -/
theorem checkTime_shorter {signedAt now : Time} {expires n : Int} (h : checkTime signedAt now expires = .ok ())
    (hn : n = expires ∨ clockSkewSecs ≤ n ∧ n < expires) : checkTime signedAt now n = .ok () := by
  rcases hn with rfl | ⟨hskew, hlt⟩
  · exact h
  obtain ⟨hmax, hclose, hvalid⟩ := checkTime_eq_ok.mp h
  have hle := seconds_mono hlt.le
  have hge := seconds_mono hskew
  have hnow := (abs_le.mp hclose).1
  have hsecs : seconds clockSkewSecs = seconds 300 := rfl
  rw [checkTime_eq_ok]
  exact ⟨by linarith, hclose, by linarith⟩

/-- A lifetime that is accepted whenever the signer's is. -/
theorem checkTime_tight {expires n : Int} (hexpires : 0 ≤ expires) (hmax : seconds expires ≤ maxTime)
    (h : ∀ signedAt now, checkTime signedAt now expires = .ok () → checkTime signedAt now n = .ok ()) :
    n = expires ∨ clockSkewSecs ≤ n ∧ n < expires := by
  have hzero : 0 ≤ seconds expires := seconds_mono hexpires
  have hnanos : ∀ x, seconds x = x * 1000000000 := fun _ => rfl
  -- where a longer lifetime overflows the clock
  obtain ⟨hlong, -, -⟩ := checkTime_eq_ok.mp (h (maxTime - seconds expires) (maxTime - seconds expires) <| by
    rw [checkTime_eq_ok, sub_self, abs_zero]
    exact ⟨by linarith, by decide, by linarith⟩)
  -- and where a shorter one has expired
  obtain ⟨-, -, hshort⟩ := checkTime_eq_ok.mp (h 0 (seconds (min expires clockSkewSecs)) <| by
    have hmin : 0 ≤ seconds (min expires clockSkewSecs) := seconds_mono (le_min hexpires (by decide))
    rw [checkTime_eq_ok, zero_sub, abs_neg, abs_of_nonneg hmin]
    exact ⟨by linarith, seconds_mono (min_le_right _ _), by linarith [seconds_mono (min_le_left expires clockSkewSecs)]⟩)
  rw [hnanos, hnanos] at hshort
  rw [hnanos, hnanos] at hlong
  have hle : n ≤ expires := by linarith
  rcases le_total expires clockSkewSecs with hskew | hskew
  · rw [min_eq_left hskew] at hshort
    exact Or.inl (le_antisymm hle (by linarith))
  · rw [min_eq_right hskew] at hshort
    rcases hle.eq_or_lt with he | hlt
    · exact Or.inl he
    · exact Or.inr ⟨by linarith, hlt⟩

section
variable {cr : Crypto} {config : Settings} {s : Signing} {method : Method} {path : Str} {headers : HeaderMap}
variable {signed : List Str} {params : List (Str × Str)}

theorem builtRequest_ok {query : Str} {text : Str} (h : builtRequest method path query headers signed = .ok text) :
    ∃ canonical, canonicalHeaders headers signed = .ok canonical ∧ canonicalRequest method path query canonical signed = text := by
  unfold builtRequest at h
  obtain ⟨canonical, hc, htext⟩ := bind_eq_ok.mp h
  exact ⟨canonical, hc, Except.ok.inj htext⟩

theorem builtRequest_eq_ok {query text : Str} {spec : Option Str} (h : (builtRequest method path query headers signed).toOption = spec)
    (hspec : spec = some text) : builtRequest method path query headers signed = .ok text := by
  rw [hspec] at h
  cases hb : builtRequest method path query headers signed with
  | error e =>
    rw [hb] at h
    cases h
  | ok t =>
    rw [hb] at h
    rw [Option.some.inj h]

/-- The URL is accepted inside the time window, if both read the same text and it is read back. -/
theorem Presigns.verify_eq (h : Presigns cr config.rootKey s method path headers signed params) {text : Str}
    (hspec : specRequest method path params headers signed = some text)
    (htext : builtRequest method path (urlQuery params) headers signed = .ok text) (hplain : PlainRequest params headers signed)
    (hreads : ReadsBack method path headers config.rootKey.accessKeyId s signed params) {now signedAt : Time}
    (hd : cr.parseAmzDate s.date = some signedAt) (ht : checkTime signedAt now s.expires = .ok ()) :
    verify cr now method path (some (urlQuery params)) headers config = .ok () := by
  obtain ⟨text', hspec', hsig⟩ := h.signature
  obtain rfl : text = text' := Option.some.inj (hspec.symm.trans hspec')
  obtain ⟨n, hexpires, hn⟩ := hreads.expires
  obtain ⟨names, hnames, hne, hbuilt⟩ := hreads.signedHeaders
  obtain ⟨canonical, hcanonical, hrequest⟩ := builtRequest_ok (hbuilt.trans htext)
  refine verify_ok_iff.mpr ⟨⟨⟨config.rootKey.accessKeyId, s.date.take 8, s.region⟩, s.date, signedAt, n, names,
    s.sign cr config.rootKey.secretAccessKey text⟩, ?_, checkTime_shorter ht hn⟩
  constructor
  case algorithm => exact (reads_urlQuery (by decide)).mpr hreads.algorithm
  case credential => exact (reads_urlQuery (by decide)).mpr hreads.credential
  case accessKey => rfl
  case date => exact (reads_urlQuery (by decide)).mpr hreads.date
  case signedAt => exact hd
  case scope => exact h.datePart_eq
  case expires => exact (reads_urlQuery (by decide)).mpr hexpires
  case signed => exact (reads_urlQuery (by decide)).mpr hnames
  case nonempty => exact hne
  case provided => exact (reads_urlQuery (by decide)).mpr (hplain.signature hsig)
  case signature =>
    refine ⟨canonical, hcanonical, ?_⟩
    rw [hrequest]
    exact Signing.sign_eq s cr config text

end

/-! ### Forged codes -/

/-- Digests that are the text, a code that tells one text from the others, and one date. -/
def forger (signs : Str) (b : Bytes) (date : Str) (signedAt : Time) : Crypto where
  sha256 := fun text => text
  hmacSha256 := fun _ data => if data = signs then b else 0 :: b
  parseAmzDate := fun d => if d = date then some signedAt else none

namespace Signing

variable {s : Signing} {text : Str} {b : Bytes} {signedAt : Time}

/-- What is signed of a text that is its own digest. -/
def signs (s : Signing) (text : Str) : Str :=
  (str "\n").intercalate [str "AWS4-HMAC-SHA256", s.date, (str "/").intercalate s.scope, hexEncode text]

theorem sign_forger (secret : Str) : s.sign (forger (s.signs text) b s.date signedAt) secret text = hexEncode b :=
  congrArg hexEncode (if_pos rfl)

/-- Under forged codes a signature is of the one text, and of one region. -/
theorem of_signature_forger {config : Settings} {region canonical : Str}
    (h : signature (forger (s.signs text) b s.date signedAt) config ⟨config.rootKey.accessKeyId, s.date.take 8, region⟩ s.date canonical =
      hexEncode b) : region = s.region ∧ canonical = text := by
  have hclear : ∀ t : Str, 10 ∉ hexEncode t := fun t hc => absurd (hexEncode_unreserved t 10 hc) (by decide)
  have hslash : s.date.take 8 ++ str "/" ++ s.region ++ str "/s3/aws4_request" = (str "/").intercalate s.scope := by
    simp only [Signing.scope, List.intercalate_cons_cons, List.intercalate_singleton, List.append_assoc]
    rfl
  -- the code is `b` of no other text than the signer's
  have hsigns : (str "\n").intercalate [str "AWS4-HMAC-SHA256", s.date, s.date.take 8 ++ str "/" ++ region ++ str "/s3/aws4_request",
      hexEncode canonical] = s.signs text := by
    have hcode := hexEncode_injective h
    by_contra hne
    have hother : (0 :: b : Bytes) = b := (if_neg hne).symm.trans hcode
    exact absurd (congrArg List.length hother) (by simp)
  unfold signs at hsigns
  rw [← hslash] at hsigns
  simp only [List.intercalate_cons_cons, List.intercalate_singleton, List.append_assoc, List.append_cancel_left_eq] at hsigns
  have hend : (region ++ str "/s3/aws4_request") ++ 10 :: hexEncode canonical =
      (s.region ++ str "/s3/aws4_request") ++ 10 :: hexEncode text := by
    rw [List.append_assoc, List.append_assoc]
    exact hsigns
  obtain ⟨hscope, hcode⟩ := append_cons_injective (hclear _) (hclear _) hend
  exact ⟨List.append_cancel_right hscope, hexEncode_injective hcode⟩

end Signing

/-! ## The condition -/

/-- The verifier's text is the specification's, and a URL signed over that is accepted, by any
    digest and code. -/
def FollowsSpec (method : Method) (path : Str) (params : List (Str × Str)) (headers : HeaderMap) (signed : List Str) : Prop :=
  (builtRequest method path (urlQuery params) headers signed).toOption = specRequest method path params headers signed ∧
    ∀ (cr : Crypto) (config : Settings) (s : Signing) (now signedAt : Time),
      Presigns cr config.rootKey s method path headers signed params → cr.parseAmzDate s.date = some signedAt →
        checkTime signedAt now s.expires = .ok () →
          verify cr now method path (some (urlQuery params)) headers config = .ok ()

/-- If the URL can be a signer's, its parameters are read back. -/
def SignerReadsBack (method : Method) (path : Str) (params : List (Str × Str)) (headers : HeaderMap) (signed : List Str) : Prop :=
  ∀ accessKeyId s b, SignerUrl accessKeyId s signed params → Carries params (str "X-Amz-Signature", hexEncode b) →
    ReadsBack method path headers accessKeyId s signed params

theorem FollowsSpec.readsBack {method : Method} {path : Str} {params : List (Str × Str)} {headers : HeaderMap} {signed : List Str}
    (h : FollowsSpec method path params headers signed) (hplain : PlainRequest params headers signed) {text : Str}
    (hspec : specRequest method path params headers signed = some text) : SignerReadsBack method path params headers signed := by
  intro accessKeyId s b hurl hsig
  have htext : builtRequest method path (urlQuery params) headers signed = .ok text := builtRequest_eq_ok h.1 hspec
  have hread : ∀ signedAt now, checkTime signedAt now s.expires = .ok () → ∃ u : UrlFields,
      OtherwiseValid (forger (s.signs text) b s.date signedAt) method path (urlQuery params) headers (.new [] accessKeyId []) u ∧
        checkTime u.signedAt now u.expires = .ok () := by
    intro signedAt now ht
    have hp : Presigns (forger (s.signs text) b s.date signedAt) ⟨accessKeyId, []⟩ s method path headers signed params :=
      ⟨hurl, text, hspec, by rw [Signing.sign_forger]; exact hsig⟩
    exact verify_ok_iff.mp (h.2 _ (.new [] accessKeyId []) s now signedAt hp (if_pos rfl) ht)
  have hdate : ∀ {signedAt u}, OtherwiseValid (forger (s.signs text) b s.date signedAt) method path (urlQuery params) headers
      (.new [] accessKeyId []) u → u.date = s.date ∧ u.signedAt = signedAt := by
    intro signedAt u hu
    have hparse : (if u.date = s.date then some signedAt else none) = some u.signedAt := hu.signedAt
    split at hparse
    · rename_i he
      exact ⟨he, (Option.some.inj hparse).symm⟩
    · cases hparse
  have hlimit : (s.expires : Int) ≤ 604800 := by exact_mod_cast hurl.expires.2
  have hmax : seconds s.expires ≤ maxTime := (seconds_mono hlimit).trans (by decide)
  have hzero : 0 ≤ seconds s.expires := seconds_mono (Int.natCast_nonneg s.expires)
  obtain ⟨u, hu, -⟩ := hread 0 0 (checkTime_eq_ok.mpr ⟨by linarith, by decide, by linarith⟩)
  obtain ⟨canonical, hcanonical, hsignature⟩ := hu.signature
  have hprovided : u.signature = hexEncode b := Reads.unique hu.provided ((reads_urlQuery (by decide)).mpr (hplain.signature hsig))
  have hcredential : u.credential = ⟨accessKeyId, s.date.take 8, u.credential.region⟩ := by
    have hkey := hu.accessKey
    have hscope := hu.scope
    rw [(hdate hu).1, hurl.datePart_eq] at hscope
    cases hc : u.credential
    rw [hc] at hkey hscope
    subst hkey hscope
    rfl
  rw [hcredential, (hdate hu).1, hprovided] at hsignature
  obtain ⟨hregion, hcanon⟩ := Signing.of_signature_forger hsignature
  constructor
  case algorithm => exact (reads_urlQuery (by decide)).mp hu.algorithm
  case credential =>
    have hreads := (reads_urlQuery (by decide)).mp hu.credential
    rw [hcredential, hregion] at hreads
    exact hreads
  case date =>
    have hreads := (reads_urlQuery (by decide)).mp hu.date
    rw [(hdate hu).1] at hreads
    exact hreads
  case expires =>
    refine ⟨u.expires, (reads_urlQuery (by decide)).mp hu.expires, checkTime_tight (Int.natCast_nonneg _) hmax ?_⟩
    intro signedAt now ht
    obtain ⟨u', hu', ht'⟩ := hread signedAt now ht
    rw [(hdate hu').2, Reads.unique hu'.expires hu.expires] at ht'
    exact ht'
  case signedHeaders =>
    refine ⟨u.signed, (reads_urlQuery (by decide)).mp hu.signed, hu.nonempty, ?_⟩
    rw [htext, builtRequest, hcanonical]
    exact congrArg Except.ok hcanon

/-- A URL signed for an upload with `x-amz-meta-a` as a signed header, whose value is `a  b`. -/
def spacedHeaders : HeaderMap := [(str "host", str "s3.example.com"), (str "x-amz-meta-a", str "a  b")]

def spacedParams : List (Str × Str) :=
  [(str "X-Amz-Algorithm", str "AWS4-HMAC-SHA256"), (str "X-Amz-Credential", str "ak/20260524/us-east-1/s3/aws4_request"),
    (str "X-Amz-Date", str "20260524T144602Z"), (str "X-Amz-Expires", str "3600"),
    (str "X-Amz-SignedHeaders", str "host;x-amz-meta-a"),
    (str "X-Amz-Signature", str "d955668fbadcdedf4fc241ca95d8c5ad93bd8604f0a9498f349dc45c29e399f7")]

def spacedSigning : Signing := ⟨str "20260524T144602Z", str "us-east-1", 3600⟩

/-- The digests and codes of the two texts under the secret key `sk`. -/
def spacedCrypto : Crypto where
  sha256 := fun data =>
    let text (v : Str) : Str :=
      str "PUT\n/bkt/k\nX-Amz-Algorithm=AWS4-HMAC-SHA256&X-Amz-Credential=ak%2F20260524%2Fus-east-1%2Fs3%2Faws4_request" ++
        str "&X-Amz-Date=20260524T144602Z&X-Amz-Expires=3600&X-Amz-SignedHeaders=host%3Bx-amz-meta-a" ++
          str "\nhost:s3.example.com\nx-amz-meta-a:" ++ v ++ str "\n\nhost;x-amz-meta-a\nUNSIGNED-PAYLOAD"
    if data = text (str "a b") then
      [0x8d, 0x33, 0x3b, 0x7e, 0x34, 0x94, 0xd1, 0x95, 0x20, 0x44, 0xf5, 0x6c, 0x5c, 0x03, 0x6e, 0x75,
        0xa7, 0xaf, 0xcb, 0x7d, 0x3c, 0x77, 0x1d, 0x70, 0xf2, 0x2f, 0xdc, 0xec, 0xdf, 0x60, 0xc8, 0x9d]
    else if data = text (str "a  b") then
      [0xfc, 0xcb, 0x58, 0xa1, 0x03, 0xba, 0xb5, 0x43, 0x69, 0xf4, 0x5c, 0xb3, 0x90, 0xf8, 0x0a, 0x78,
        0x35, 0xe1, 0xd2, 0xd6, 0x59, 0x14, 0xa6, 0x4e, 0x17, 0x6d, 0x83, 0x1f, 0xc2, 0x6f, 0x60, 0x90]
    else uploadCrypto.sha256 data
  hmacSha256 := fun key data =>
    let scope := str "AWS4-HMAC-SHA256\n20260524T144602Z\n20260524/us-east-1/s3/aws4_request\n"
    if data = scope ++ str "8d333b7e3494d1952044f56c5c036e75a7afcb7d3c771d70f22fdcecdf60c89d" then
      [0xd9, 0x55, 0x66, 0x8f, 0xba, 0xdc, 0xde, 0xdf, 0x4f, 0xc2, 0x41, 0xca, 0x95, 0xd8, 0xc5, 0xad,
        0x93, 0xbd, 0x86, 0x04, 0xf0, 0xa9, 0x49, 0x8f, 0x34, 0x9d, 0xc4, 0x5c, 0x29, 0xe3, 0x99, 0xf7]
    else if data = scope ++ str "fccb58a103bab54369f45cb390f80a7835e1d2d65914a64e176d831fc26f6090" then
      [0x07, 0x82, 0x68, 0x17, 0xe1, 0x7e, 0xa9, 0x96, 0x1e, 0x60, 0x53, 0x85, 0x7f, 0x83, 0x35, 0xcc,
        0x34, 0x0b, 0x38, 0x81, 0x27, 0x70, 0x1d, 0x6c, 0x07, 0x28, 0x95, 0xad, 0x86, 0x84, 0x80, 0x84]
    else uploadCrypto.hmacSha256 key data
  parseAmzDate := uploadCrypto.parseAmzDate

theorem spacedUrl_presigned : Presigns spacedCrypto sampleSettings.rootKey spacedSigning .put (str "/bkt/k") spacedHeaders
    (signedHeadersOf (str "host;x-amz-meta-a")) spacedParams where
  date := by decide
  region := ⟨isUtf8_of_ascii (by decide), by decide⟩
  accessKey := ⟨isUtf8_of_ascii (by decide), by decide⟩
  expires := by decide
  names := by decide
  own := by decide
  signature := ⟨_, rfl, by decide +kernel⟩

end S3lite
