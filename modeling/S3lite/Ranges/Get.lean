/-
  S3lite.Ranges.Get — a GET with any Range header, of any object that requests served one after
  the other have stored.

  - `Ranged`: what the steps of the run have to meet. No reference count saturates, no
    manifest's sizes overflow, no two contents collide, and in a build with debug assertions
    no object put whole gets a second part.
  - `sequential_stocked`: every row is `Intact` then. Its parts are there, as long as recorded,
    and its size is their sum.
  - `ranges_answered`: so the GET is refused as InvalidArgument, or sends the whole object, or
    exactly the range.
  - `a_get_panics`: a part uploaded under the version id of an object.
-/
import S3lite.Server.Effects
import S3lite.Ranges.Copy
import S3lite.Listing.Positions
import S3lite.Ranges.Header
import S3lite.Safety.Sequential

namespace S3lite

open Handler

/-! ## The condition of a run -/

/-- The bytes to write are those already stored under their hash, if any are. -/
def NoCollision (env : Env) (w : World) (op : Op) : Prop :=
  ∀ data, op = .writeBytes data → ∀ bytes, w.files.get (env.blake3 data) = some bytes → bytes = data

/-- The sizes of every manifest's parts add up within a `u64`. -/
def SizesFit (env : Env) (w : World) (op : Op) : Prop :=
  ∀ r ∈ (exec env op w).2.db.objects.rows, (r.2.parts.map (·.size)).sum < 2 ^ 64

/-- No second part is uploaded into an object that was put whole. -/
def StaysSingle (w : World) (op : Op) : Prop :=
  ∀ key part m, op = .metaOp (.appendPart key part) → w.db.objects.get key.encode = some m → m.state = .committed →
    m.kind = .object → m.uploadMode = .singlePut → ∀ p ∈ m.parts, p.partNumber = part.partNumber

structure Ranged (env : Env) (w : World) (op : Op) : Prop where
  room : HasRoom env w op
  collision : NoCollision env w op
  sizes : SizesFit env w op
  single : env.debug = true → StaysSingle w op

/-! ## Manifests -/

/-- The size is the sum of the parts', and the ETag has the part it is computed from: in a build
    with debug assertions, no other. -/
structure Measured (debug : Bool) (m : Manifest) : Prop where
  size : m.size = (m.parts.map (·.size)).sum
  parts : m.state = .committed → m.kind = .object → m.uploadMode = .singlePut →
    m.parts ≠ [] ∧ (debug = true → m.parts.length = 1)

theorem Measured.same {debug : Bool} {m m' : Manifest} (h : Measured debug m) (hs : m'.state = m.state) (hk : m'.kind = m.kind)
    (hmode : m'.uploadMode = m.uploadMode) (hparts : m'.parts = m.parts) (hsize : m'.size = m.size) : Measured debug m' := by
  refine ⟨by rw [hsize, hparts]; exact h.size, fun hs' hk' hmode' => ?_⟩
  rw [hparts]
  exact h.parts (hs ▸ hs') (hk ▸ hk') (hmode ▸ hmode')

theorem Measured.etag_isSome {env : Env} {m : Manifest} (h : Measured env.debug m) (hs : m.state = .committed)
    (hk : m.kind = .object) : (m.etag env.md5 env.debug).isSome = true := by
  unfold Manifest.etag
  cases hmode : m.uploadMode with
  | multipart => rfl
  | singlePut =>
    obtain ⟨hne, hone⟩ := h.parts hs hk hmode
    have hassert : (env.debug && m.parts.length != 1) = false := by
      cases hd : env.debug with
      | false => rfl
      | true => simp [hone hd]
    rw [hassert]
    obtain ⟨p, ps, hparts⟩ := List.exists_cons_of_ne_nil hne
    rw [hparts]
    rfl

theorem Stores.measured {env : Env} {debug : Bool} {g : Ghost} {m : Manifest} (h : Stores env g m)
    (hseen : ∀ src ∈ g.seen, Measured debug src) : Measured debug m := by
  cases h with
  | tombstone key now => exact ⟨rfl, fun _ hk => by cases hk⟩
  | upload key headers now => exact ⟨rfl, fun hs => by cases hs⟩
  | single key data headers tags checksum lock now hchecksum =>
    exact ⟨(Nat.add_zero _).symm, fun _ _ _ => ⟨List.cons_ne_nil _ _, fun _ => rfl⟩⟩
  | copy src key headers now hsrc hs hk => exact (hseen src hsrc).same hs.symm hk.symm rfl rfl rfl

/-- An upload's or an object's sizes fit before they are added up. -/
theorem sizeSum_eq {parts : List PartRef} (h : (parts.map (·.size)).sum < 2 ^ 64) : sizeSum parts = (parts.map (·.size)).sum :=
  Nat.mod_eq_of_lt h

theorem measured_step {debug : Bool} {op : MetaOp} {o o' : Objects} (hs : ObjectsStep op o o')
    (hrows : ∀ r ∈ o.rows, Measured debug r.2) (hsizes : ∀ r ∈ o'.rows, (r.2.parts.map (·.size)).sum < 2 ^ 64)
    (happend : debug = true → ∀ key part m, op = .appendPart key part → o.get key.encode = some m → m.state = .committed →
      m.kind = .object → m.uploadMode = .singlePut → ∀ p ∈ m.parts, p.partNumber = part.partNumber)
    (hput : ∀ m, op = .putManifest m → Measured debug m)
    (hcomplete : ∀ k m, op = .completeMultipartUpload k m → m.size = sizeSum m.parts ∧ m.uploadMode = .multipart)
    (hstate : ∀ k s, op ≠ .updateManifestState k s) : ∀ r ∈ o'.rows, Measured debug r.2 := by
  have hinsert : ∀ {slot : Bytes} {m : Manifest}, Measured debug m → ∀ r ∈ (o.insert slot m).rows, Measured debug r.2 := by
    intro slot m hm r hr
    rcases Table.mem_insert.mp hr with rfl | ⟨hr, -⟩
    · exact hm
    · exact hrows r hr
  have hself : ∀ {slot : Bytes} {m : Manifest}, (slot, m) ∈ (o.insert slot m).rows := fun {slot m} =>
    Table.mem_insert.mpr (Or.inl rfl)
  cases hs with
  | same => exact hrows
  | put m => exact hinsert (hput m rfl)
  | delete k m _ hm => exact fun r hr => hrows r (Table.mem_erase.mp hr).1
  | state k s => exact absurd rfl (hstate k s)
  | tags k tags m _ hm => exact hinsert ((hrows _ (Table.mem_rows.mpr hm)).same rfl rfl rfl rfl rfl)
  | lock k lock m _ hm => exact hinsert ((hrows _ (Table.mem_rows.mpr hm)).same rfl rfl rfl rfl rfl)
  | append k part m now _ hm =>
    have hfit := hsizes _ hself
    have hmem : part ∈ replacePart m.parts part := mem_replacePart.mpr (Or.inr rfl)
    have hrow := Table.mem_rows.mpr hm
    refine hinsert ⟨sizeSum_eq hfit, fun hs hk hmode => ⟨List.ne_nil_of_mem hmem, fun hd => ?_⟩⟩
    -- the one part it has is the one that is replaced
    obtain ⟨p, hparts⟩ := List.length_eq_one_iff.mp (((hrows _ hrow).parts hs hk hmode).2 hd)
    have hnumber := happend hd k part m rfl hm hs hk hmode p (hparts ▸ List.mem_singleton_self p)
    have herase : m.parts.eraseP (fun p => p.partNumber = part.partNumber) = [] := by
      rw [hparts]
      simp [hnumber]
    show (replacePart m.parts part).length = 1
    rw [replacePart, herase]
    rfl
  | complete k m up _ hup hp =>
    obtain ⟨hsize, hmode⟩ := hcomplete k m rfl
    intro r hr
    have hfit := hsizes r hr
    rcases Table.mem_insert.mp (Table.mem_erase.mp hr).1 with rfl | ⟨hr, -⟩
    · exact ⟨hsize.trans (sizeSum_eq hfit), fun _ _ hsingle => by rw [hmode] at hsingle; cases hsingle⟩
    · exact hrows r hr

/-! ## Every row -/

/-- What every step keeps, with the request's ghost states. -/
structure Stocked (env : Env) (w : World) (g : Ghost) (gr : Ground) : Prop where
  parts : ∀ r ∈ w.db.objects.rows, ∀ p ∈ r.2.parts, PartIntact w p
  written : ∀ data ∈ gr.written, w.files.get (env.blake3 data) = some data
  measured : ∀ r ∈ w.db.objects.rows, Measured env.debug r.2
  seen : ∀ m ∈ g.seen, Measured env.debug m
  bounded : ∀ r ∈ w.db.objects.rows, (r.2.parts.map (·.size)).sum < 2 ^ 64

section
variable {env : Env} {w : World} {g : Ghost} {gr : Ground}

theorem written_step (h : ∀ data ∈ gr.written, w.files.get (env.blake3 data) = some data) (op : Op) (hnew : NoCollision env w op) :
    ∀ data ∈ (gr.next op (exec env op w).1).written, (exec env op w).2.files.get (env.blake3 data) = some data := by
  cases op with
  | writeBytes data =>
    have hkept : ∀ x bytes, w.files.get x = some bytes → (writePart env w.files data).2.get x = some bytes := by
      intro x bytes hx
      rw [writePart_get, if_neg]
      · exact hx
      · rw [hx]
        exact fun hnone => by cases hnone.2
    intro d hd
    show (writePart env w.files data).2.get (env.blake3 d) = some d
    rcases List.mem_cons.mp hd with rfl | hd
    · cases hfile : w.files.get (env.blake3 d) with
      | none => rw [writePart_get, if_pos ⟨rfl, hfile⟩]
      | some bytes =>
        rw [hkept _ _ hfile, hnew d rfl bytes hfile]
    · exact hkept _ _ (h d hd)
  | deletePart hash => exact fun d hd => absurd hd List.not_mem_nil
  | metaOp op => exact fun d hd => h d (gr.nextMeta_written op _ ▸ hd)
  | _ => exact h

theorem Stocked.step (hsteady : Steady env w g gr) (h : Stocked env w g gr) (op : Op) (hok : g.Allows env op)
    (hgr : gr.Allows env op) (hfit : Ranged env w op) :
    Stocked env (exec env op w).2 (g.next op (exec env op w).1) (gr.next op (exec env op w).1) := by
  have hkept : ∀ r ∈ w.db.objects.rows, ∀ p ∈ r.2.parts, PartIntact (exec env op w).2 p := by
    intro r hr p hp
    obtain ⟨data, hdata, hlen⟩ := h.parts r hr p hp
    exact ⟨data, hsteady.keeps_file hok hr hp hdata, hlen⟩
  refine ⟨fun r hr p hp => ?_, written_step h.written op hfit.collision, ?_, fun m hm => ?_, hfit.sizes⟩
  · cases op with
    | metaOp op =>
      rcases (exec_objects op _ _ w.db).part_origin hr hp with ⟨r0, hr0, hp⟩ | hp
      · exact hkept r0 hr0 p hp
      rcases gr.has_of_counts hgr hp with ⟨data, hdata, hhash, hsize⟩ | ⟨src, hsrc, hp⟩
      · exact ⟨data, by rw [hhash]; exact h.written data hdata, hsize.symm⟩
      · obtain ⟨slot, hslot⟩ := hsteady.grounded.read src hsrc
        exact hkept _ (Table.mem_rows.mpr hslot) p hp
    | _ => exact hkept r hr p hp
  · cases op with
    | metaOp op =>
      refine measured_step (exec_objects op _ _ w.db) h.measured hfit.sizes ?_ ?_ ?_ ?_
      · intro hd key part m e hm
        exact hfit.single hd key part m (congrArg Op.metaOp e) hm
      · intro m e
        subst e
        exact hok.stores.measured h.seen
      · intro k m e
        subst e
        obtain ⟨-, -, up, selected, now, -, -, -, rfl⟩ := hok
        exact ⟨rfl, rfl⟩
      · intro k s e
        subst e
        exact hok
    | _ => exact h.measured
  · rcases mem_seen_next hsteady.tidy.wellKeyed hm with hm | ⟨slot, hm⟩
    · exact h.seen m hm
    · exact h.measured _ (Table.mem_rows.mpr hm)

theorem Stocked.empty (env : Env) : Stocked env .empty .start .start :=
  ⟨fun _ hr => absurd hr List.not_mem_nil, fun _ hd => absurd hd List.not_mem_nil, fun _ hr => absurd hr List.not_mem_nil,
    fun _ hm => absurd hm List.not_mem_nil, fun _ hr => absurd hr List.not_mem_nil⟩

theorem sequential_stocked (henv : env.Sane) (h : Sequential env (Ranged env) w) :
    Steady env w .start .start ∧ Stocked env w .start .start :=
  sequential_sound henv (fun _ _ hfit => hfit.room) (.empty env)
    (fun _ _ _ hi => ⟨hi.parts, fun _ hd => absurd hd List.not_mem_nil, hi.measured, fun _ hm => absurd hm List.not_mem_nil, hi.bounded⟩)
    (fun _ _ _ op hsteady hi hok hgr hfit => hi.step hsteady op hok hgr hfit) h

/-- The parts of every row are there, and its size is their sum. -/
theorem Stocked.intact (h : Stocked env w g gr) {slot : Bytes} {m : Manifest} (hm : w.db.objects.get slot = some m) : Intact w m := by
  have hrow := Table.mem_rows.mpr hm
  have hsize := (h.measured _ hrow).size
  exact ⟨h.parts _ hrow, hsize, hsize ▸ h.bounded _ hrow⟩

end

/-! ## The answer's headers -/

theorem get_setHeader_self {headers : HeaderMap} {name value : Str} (hn : isHeaderName name = true) (hl : toAsciiLower name = name)
    (hv : isHeaderValue value = true) : HeaderMap.get (setHeader headers name value) name = some value := by
  have hfilter : (headers.filter fun h => h.1 ≠ name).find? (fun h => h.1 = name) = none := by
    rw [List.find?_eq_none]
    intro h hh
    simpa using (List.mem_filter.mp hh).2
  unfold setHeader HeaderMap.get
  rw [hn, hv, hl, Bool.and_self, if_pos rfl, List.find?_append, hfilter]
  simp

theorem get_setHeader_ne {headers : HeaderMap} {name value other : Str} (h : toAsciiLower name ≠ other) :
    HeaderMap.get (setHeader headers name value) other = headers.get other := by
  unfold setHeader HeaderMap.get
  split
  · have hlast : [(toAsciiLower name, value)].find? (fun h => h.1 = other) = none := by simp [h]
    rw [List.find?_append, hlast, Option.or_none, List.find?_filter]
    congr 2
    funext x
    by_cases hx : x.1 = other
    · simp [hx, Ne.symm h]
    · simp [hx]
  · rfl

/-- A header that neither starts with `x` nor is `accept-ranges` is not replaced after it is set. -/
theorem get_laterHeaders {env : Env} {m : Manifest} (range : Option (Nat × Nat)) {name : Str} (hx : name.head? ≠ some 120)
    (ha : toAsciiLower (str "accept-ranges") ≠ name) (resp : Response) :
    (m.userMetadata.rows.foldl (fun resp kv => resp.setHeader (str "x-amz-meta-" ++ kv.1) kv.2)
      (if range.isNone then
        withChecksumHeader env ((resp.setHeader (str "accept-ranges") (str "bytes")).setHeader (str "x-amz-storage-class")
          m.storageClass) m.additionalChecksum
      else (resp.setHeader (str "accept-ranges") (str "bytes")).setHeader (str "x-amz-storage-class") m.storageClass)).headers.get
        name = resp.headers.get name := by
  have hamz : ∀ (resp : Response) (n value : Str), (toAsciiLower n).head? = some 120 →
      (resp.setHeader n value).headers.get name = resp.headers.get name := fun resp n value hn =>
    get_setHeader_ne fun e => hx (e ▸ hn)
  have hmeta : ∀ (rows : List (Str × Str)) (resp : Response),
      (rows.foldl (fun resp kv => resp.setHeader (str "x-amz-meta-" ++ kv.1) kv.2) resp).headers.get name = resp.headers.get name := by
    intro rows
    induction rows with
    | nil => exact fun _ => rfl
    | cons kv rows ih => exact fun resp => (ih _).trans (hamz _ _ _ rfl)
  have haccept : (resp.setHeader (str "accept-ranges") (str "bytes")).headers.get name = resp.headers.get name := by
    show HeaderMap.get (setHeader resp.headers (str "accept-ranges") (str "bytes")) name = HeaderMap.get resp.headers name
    exact get_setHeader_ne ha
  have hset : ((resp.setHeader (str "accept-ranges") (str "bytes")).setHeader (str "x-amz-storage-class") m.storageClass).headers.get
      name = resp.headers.get name := (hamz _ _ _ (by decide)).trans haccept
  rw [hmeta]
  split
  · unfold withChecksumHeader
    split
    · rename_i ac _
      rw [hamz _ _ _ (by cases ac.algorithm <;> decide), hset]
    · exact hset
  · exact hset

theorem isHeaderValue_natStr (n : Nat) : isHeaderValue (natStr n) = true := by
  refine List.all_eq_true.mpr fun b hb => ?_
  obtain ⟨hlo, hhi⟩ := (natStr_digits n).2 b hb
  have h32 : 32 ≤ b := le_trans (by decide) hlo
  have h127 : b ≠ 127 := by
    intro e
    rw [e] at hhi
    exact absurd hhi (by decide)
  simp [h32, h127]

theorem contentLength_whole {env : Env} {m : Manifest} {etag : Str} {resp : Response} :
    (objectHeaders env m etag none resp).headers.get (str "content-length") = some (natStr m.size) := by
  refine (get_laterHeaders none (by decide) (by decide) _).trans ?_
  exact get_setHeader_self (by decide) (by decide) (isHeaderValue_natStr _)

theorem contentLength_range {env : Env} {m : Manifest} {etag : Str} {first last : Nat} {resp : Response} :
    (objectHeaders env m etag (some (first, last)) resp).headers.get (str "content-length") = some (natStr (last - first + 1)) := by
  refine (get_laterHeaders (some (first, last)) (by decide) (by decide) _).trans ?_
  exact get_setHeader_self (by decide) (by decide) (isHeaderValue_natStr _)

/-- `bytes {start}-{end}/{size}` -/
def contentRange (first last size : Nat) : Str :=
  str "bytes " ++ natStr first ++ str "-" ++ natStr last ++ str "/" ++ natStr size

theorem contentRange_range {env : Env} {m : Manifest} {etag : Str} {first last : Nat} {resp : Response} :
    (objectHeaders env m etag (some (first, last)) resp).headers.get (str "content-range") =
      some (contentRange first last m.size) := by
  have hvalue : isHeaderValue (contentRange first last m.size) = true := by
    have happend : ∀ a b : Str, isHeaderValue a = true → isHeaderValue b = true → isHeaderValue (a ++ b) = true := by
      intro a b ha hb
      unfold isHeaderValue at ha hb ⊢
      rw [List.all_append, ha, hb, Bool.and_self]
    exact happend _ _ (happend _ _ (happend _ _ (happend _ _ (happend _ _ (by decide) (isHeaderValue_natStr _)) (by decide))
      (isHeaderValue_natStr _)) (by decide)) (isHeaderValue_natStr _)
  refine (get_laterHeaders (some (first, last)) (by decide) (by decide) _).trans ?_
  refine (get_setHeader_ne (by decide)).trans ?_
  exact get_setHeader_self (by decide) (by decide) hvalue

/-! ## The answer -/

/-- No header is a condition. -/
structure NoConditions (headers : HeaderMap) : Prop where
  noMatch : headers.get (str "if-match") = none
  noNoneMatch : headers.get (str "if-none-match") = none
  notModified : headers.get (str "if-modified-since") = none
  notUnmodified : headers.get (str "if-unmodified-since") = none

structure SendsWhole (data : Bytes) (resp : Response) : Prop where
  status : resp.status = 200
  body : resp.body = .bytes data
  length : resp.headers.get (str "content-length") = some (natStr data.length)

structure SendsRange (data : Bytes) (first last : Nat) (resp : Response) : Prop where
  first_le : first ≤ last
  last_lt : last < data.length
  status : resp.status = 206
  body : resp.body = .bytes ((data.take (last + 1)).drop first)
  range : resp.headers.get (str "content-range") = some (contentRange first last data.length)
  length : resp.headers.get (str "content-length") = some (natStr (last - first + 1))

/-- What a GET of the bytes is answered. -/
structure AnswersGet (headers : HeaderMap) (data : Bytes) (answer : Except Failure Response) : Prop where
  answered : (∃ e, answer = .error (.error e) ∧ e.code = .invalidArgument) ∨
    ∃ resp, answer = .ok resp ∧ (SendsWhole data resp ∨ ∃ first last, SendsRange data first last resp)
  suffix : ∀ n, headers.get (str "range") = some (str "bytes=-" ++ natStr n) → 1 ≤ n → n < 2 ^ 64 → data ≠ [] →
    ∃ resp, answer = .ok resp ∧ SendsRange data (data.length - n) (data.length - 1) resp ∧
      resp.body = .bytes (data.drop (data.length - min n data.length))

section
variable {env : Env} {w : World}

theorem evaluatePreconditions_none {headers : HeaderMap} (h : NoConditions headers) (etag : Str) (lastModified : Time)
    (bucket key : Str) : evaluatePreconditions env headers etag lastModified bucket key = none := by
  unfold evaluatePreconditions
  dsimp only
  rw [headerString_none h.noMatch, headerString_none h.noNoneMatch, headerString_none h.notModified,
    headerString_none h.notUnmodified]
  rfl

theorem readBody_whole {m : Manifest} (h : Intact w m) : run env (readBody m false none) w = (.ok (objectBytes w m), w) := by
  have hread : run env (readParts m.parts) w = (.ok (objectBytes w m), w) := readParts_intact h.parts
  rw [readBody, if_neg (by decide), run_bind, hread]
  rfl

theorem ensures_findVersion {bucket key : Str} {versionId : Option Str} {m : Manifest}
    (hm : foundVersion w.db bucket key versionId = some m) (hs : m.state = .committed) {Q : Manifest → World → Prop}
    {E : Failure → World → Prop} (hq : Q m { w with clock := w.clock + 2 }) :
    Ensures env (findVersion bucket key versionId) w Q E := by
  cases versionId with
  | none =>
    have hfound : (exec env (.metaOp (.getLatestVersion bucket key)) w).1 = some m := hm
    unfold findVersion
    simp only [ensures_bind, ensures_op, ensures_orFail, hfound]
    exact ⟨fun a ha => (Option.some.inj ha) ▸ hq, fun hnone => by cases hnone⟩
  | some vid =>
    have hfound : (exec env (.metaOp (.getManifest ⟨bucket, key, vid⟩)) w).1 = some m := hm
    unfold findVersion
    simp only [ensures_bind, ensures_op, ensures_orFail, hfound, Option.filter_some, hs, decide_true, if_true]
    exact ⟨fun a ha => (Option.some.inj ha) ▸ hq, fun hnone => by cases hnone⟩

/-- What the range of the header is answered with. -/
def sentFor (env : Env) (m : Manifest) (etag : Str) (data : Bytes) : Option (Nat × Nat) → Response
  | none => objectHeaders env m etag none ⟨200, [], .bytes data⟩
  | some r => objectHeaders env m etag (some r) ⟨206, [], .bytes (cut r.1 (r.2 + 1) data)⟩

/-- A GET of an intact object reads its range and sends it. -/
theorem ensures_getObject {bucket key : Str} {versionId : Option Str} {m : Manifest} (hb : (w.db.buckets.get bucket).isSome)
    (hm : foundVersion w.db bucket key versionId = some m) (hs : m.state = .committed) (hk : m.kind = .object)
    {etag : Str} (hetag : m.etag env.md5 env.debug = some etag) (h : Intact w m) {headers : HeaderMap} (hc : NoConditions headers) :
    Ensures env (getOrHeadObject env bucket key versionId headers false) w
      (fun resp _ => ∃ range, parseRangeHeader headers m.size = .ok range ∧ resp = sentFor env m etag (objectBytes w m) range)
      fun e _ => ∃ e', e = .error e' ∧ parseRangeHeader headers m.size = .error e' := by
  simp only [getOrHeadObject, ensures_bind, ensures_requireBucket, ensures_ensure]
  refine ⟨fun cfg _ => ?_, fun hnone => by rw [hnone] at hb; cases hb⟩
  refine ensures_findVersion (w := { w with clock := w.clock + 2 }) hm hs ?_
  refine ⟨fun _ => ?_, fun hne => absurd hk hne⟩
  have hetagOf : etagOf env m = ok etag := by
    unfold etagOf
    rw [hetag]
  rw [hetagOf, ensures_ok, evaluatePreconditions_none hc]
  simp only [ensures_bind, ensures_ofExcept]
  refine ⟨fun range hrange => ?_, fun e he => ⟨e, rfl, he⟩⟩
  have hlater : Intact { w with clock := w.clock + 2 + 2 } m := ⟨h.parts, h.size, h.bounded⟩
  cases range with
  | none =>
    unfold Ensures
    rw [readBody_whole hlater]
    exact ⟨none, hrange, rfl⟩
  | some r =>
    obtain ⟨first, last⟩ := r
    unfold Ensures
    rw [readBody_intact hlater (parseRangeHeader_inside hrange).2]
    exact ⟨some (first, last), hrange, rfl⟩

theorem sendsWhole {m : Manifest} {etag : Str} (h : Intact w m) :
    SendsWhole (objectBytes w m) (sentFor env m etag (objectBytes w m) none) := by
  have hfields := objectHeaders_fields env m etag none ⟨200, [], .bytes (objectBytes w m)⟩
  exact ⟨hfields.1, hfields.2, h.length.symm ▸ contentLength_whole⟩

theorem sendsRange {m : Manifest} {etag : Str} (h : Intact w m) {first last : Nat} (hle : first ≤ last) (hlt : last < m.size) :
    SendsRange (objectBytes w m) first last (sentFor env m etag (objectBytes w m) (some (first, last))) := by
  have hfields := objectHeaders_fields env m etag (some (first, last)) ⟨206, [], .bytes (cut first (last + 1) (objectBytes w m))⟩
  exact ⟨hle, h.length.symm ▸ hlt, hfields.1, hfields.2, h.length.symm ▸ contentRange_range, contentLength_range⟩

/-- The bucket of a version that is found. -/
theorem Steady.bucket_of_found {g : Ghost} {gr : Ground} (h : Steady env w g gr) {bucket key : Str} {versionId : Option Str}
    {m : Manifest} (hm : foundVersion w.db bucket key versionId = some m) :
    (∃ slot, w.db.objects.get slot = some m) ∧ (w.db.buckets.get bucket).isSome := by
  cases versionId with
  | some vid =>
    have hget : w.db.objects.get (ManifestKey.mk bucket key vid).encode = some m := hm
    have hrow := Table.mem_rows.mpr hget
    obtain ⟨hslot, hclear⟩ := h.tidy.wellKeyed _ hrow
    have hkey := eq_of_encode hclear hslot
    have hhoused := h.housed _ hrow
    rw [← hkey] at hhoused
    exact ⟨⟨_, hget⟩, hhoused⟩
  | none =>
    obtain ⟨⟨slot, hrow⟩, -, hbucket, -⟩ := mem_versionsOf.mp (get_latest_mem h.tidy.wellKeyed hm)
    have hhoused := h.housed _ hrow
    rw [hbucket] at hhoused
    exact ⟨⟨slot, Table.mem_rows.mp hrow⟩, hhoused⟩

theorem ranges_answered (henv : env.Sane) (hw : Sequential env (Ranged env) w) {bucket key : Str} {versionId : Option Str}
    {m : Manifest} (hm : foundVersion w.db bucket key versionId = some m) (hs : m.state = .committed) (hk : m.kind = .object)
    {headers : HeaderMap} (hc : NoConditions headers) :
    Intact w m ∧ AnswersGet headers (objectBytes w m) (run env (getOrHeadObject env bucket key versionId headers false) w).1 := by
  obtain ⟨hsteady, hstocked⟩ := sequential_stocked henv hw
  obtain ⟨⟨slot, hslot⟩, hbucket⟩ := hsteady.bucket_of_found hm
  have hintact := hstocked.intact hslot
  obtain ⟨etag, hetag⟩ := Option.isSome_iff_exists.mp ((hstocked.measured _ (Table.mem_rows.mpr hslot)).etag_isSome hs hk)
  have hget := ensures_getObject hbucket hm hs hk hetag hintact hc
  obtain ⟨answer, w', hrun⟩ : ∃ answer w', run env (getOrHeadObject env bucket key versionId headers false) w = (answer, w') :=
    ⟨_, _, rfl⟩
  unfold Ensures at hget
  rw [hrun] at hget ⊢
  refine ⟨hintact, ?_, fun n hn hpos hbound hne => ?_⟩
  · cases answer with
    | error e =>
      obtain ⟨e', rfl, he⟩ := hget
      exact Or.inl ⟨e', rfl, refusesAs_parseRangeHeader headers m.size e' he⟩
    | ok resp =>
      obtain ⟨range, hrange, rfl⟩ := hget
      refine Or.inr ⟨_, rfl, ?_⟩
      cases range with
      | none => exact Or.inl (sendsWhole hintact)
      | some r =>
        obtain ⟨first, last⟩ := r
        obtain ⟨hle, hlt⟩ := parseRangeHeader_inside hrange
        exact Or.inr ⟨first, last, sendsRange hintact hle hlt⟩
  · have hlen := hintact.length
    have hsize : 0 < m.size := hlen ▸ List.length_pos_iff.mpr hne
    have hparsed := parseRangeHeader_suffix hn hpos hbound hsize
    rw [hparsed] at hget
    cases answer with
    | error e =>
      obtain ⟨e', -, he⟩ := hget
      cases he
    | ok resp =>
      obtain ⟨range, hrange, rfl⟩ := hget
      cases hrange
      refine ⟨_, rfl, ?_, ?_⟩
      · rw [hlen]
        exact sendsRange hintact (by omega) (by omega)
      · have hcut : cut (m.size - n) (m.size - 1 + 1) (objectBytes w m) =
            (objectBytes w m).drop ((objectBytes w m).length - min n (objectBytes w m).length) := by
          rw [hlen, cut, List.take_of_length_le (by omega)]
          congr 1
          omega
        rw [← hcut]
        exact (objectHeaders_fields ..).2

end

/-! ## A part of an object -/

def rangedCheck (env : Env) (w : World) (op : Op) : Bool :=
  roomCheck env w op && ((exec env op w).2.db.objects.rows.all fun r => decide ((r.2.parts.map (·.size)).sum < 2 ^ 64)) &&
    match op with
    | .writeBytes data => (w.files.get (env.blake3 data)).all fun bytes => decide (bytes = data)
    | .metaOp (.appendPart key _) => (w.db.objects.get key.encode).all fun m => decide (m.state ≠ .committed)
    | _ => true

theorem ranged_of_check {env : Env} {w : World} {op : Op} (h : rangedCheck env w op = true) : Ranged env w op := by
  unfold rangedCheck at h
  simp only [Bool.and_eq_true] at h
  obtain ⟨⟨hroom, hsizes⟩, hop⟩ := h
  refine ⟨hasRoom_of_check hroom, ?_, fun r hr => of_decide_eq_true (List.all_eq_true.mp hsizes r hr), fun _ => ?_⟩
  · intro data e bytes hbytes
    subst e
    exact of_decide_eq_true (Option.all_eq_true _ _ |>.mp hop bytes hbytes)
  · intro key part m e hm hs
    subst e
    exact absurd hs (of_decide_eq_true (Option.all_eq_true _ _ |>.mp hop m hm))

def debugEnv : Env := { sampleEnv with debug := true }

theorem debugEnv_sane : debugEnv.Sane := ⟨sampleEnv_sane.uuid_injective, sampleEnv_sane.uuid_clear, sampleEnv_sane.uuid_ne_null⟩

/-- An object of two bytes. -/
def onePut : World := served debugEnv .empty [.createBucket (str "bucket") [], .putObject (str "bucket") (str "k") [] (str "ab")]

theorem ranges_answered_suffix : ∃ m, foundVersion onePut.db (str "bucket") (str "k") none = some m ∧ Intact onePut m ∧
    AnswersGet [(str "range", str "bytes=-1")] (objectBytes onePut m)
      (run debugEnv (getOrHeadObject debugEnv (str "bucket") (str "k") none [(str "range", str "bytes=-1")] false) onePut).1 := by
  have hcheck : ∀ w op, rangedCheck debugEnv w op = true → Ranged debugEnv w op := fun _ _ h => ranged_of_check h
  have hw : Sequential debugEnv (Ranged debugEnv) onePut := sequential_served hcheck .empty (by rfl)
  have hfound : ∃ m, foundVersion onePut.db (str "bucket") (str "k") none = some m ∧ m.state = .committed ∧ m.kind = .object :=
    ⟨_, rfl, rfl, rfl⟩
  obtain ⟨m, hm, hs, hk⟩ := hfound
  exact ⟨m, hm, ranges_answered debugEnv_sane hw hm hs hk ⟨rfl, rfl, rfl, rfl⟩⟩

/-- An object, and a second part uploaded to its version id. -/
def twoParts : World := served debugEnv .empty
  [.createBucket (str "bucket") [], .putObject (str "bucket") (str "k") [] (str "a"),
    .uploadPart (str "bucket") (str "k") (str "null") 2 [] (str "b")]

theorem a_get_panics : ¬ ∀ w, Sequential debugEnv (fun _ _ => True) w → ∀ (bucket key : Str) (versionId : Option Str) (m : Manifest),
    foundVersion w.db bucket key versionId = some m → m.state = .committed → m.kind = .object → ∀ headers, NoConditions headers →
      AnswersGet headers (objectBytes w m) (run debugEnv (getOrHeadObject debugEnv bucket key versionId headers false) w).1 := by
  intro h
  have hcheck : ∀ (w : World) (op : Op), true = true → True := fun _ _ _ => trivial
  have hw : Sequential debugEnv (fun _ _ => True) twoParts := sequential_served hcheck .empty (by rfl)
  have hfound : ∃ m, foundVersion twoParts.db (str "bucket") (str "k") none = some m ∧ m.state = .committed ∧ m.kind = .object :=
    ⟨_, rfl, rfl, rfl⟩
  obtain ⟨m, hm, hs, hk⟩ := hfound
  have hpanic : (run debugEnv (getOrHeadObject debugEnv (str "bucket") (str "k") none [] false) twoParts).1 = .error .panicked := by
    rfl
  rcases (h twoParts hw _ _ none m hm hs hk [] ⟨rfl, rfl, rfl, rfl⟩).answered with ⟨e, he, -⟩ | ⟨resp, hresp, -⟩
  · rw [hpanic] at he
    cases he
  · rw [hpanic] at hresp
    cases hresp

end S3lite
