/-
  S3lite.Server.Answers — what the handlers can answer, whatever the world.

  `Yields x Q`: on every reply of its operations the handler ends in `Q`, panics, or fails
  with an error other than NotImplemented. Each construct has one rule, all of them in the
  simp set; a fallible helper refuses alike (`Refuses`).
  - `request_answers`: no handler answers with the status 501 or a CORS header. Those are
    dispatch's and the preflight's alone.
-/
import S3lite.S3.Dispatch

namespace S3lite

/-! ## Fallible helpers -/

/-- The error is another than NotImplemented. -/
def Refuses {α : Type} (r : Except S3Error α) : Prop := ∀ e, r = .error e → e.code ≠ .notImplemented

section
variable {α β : Type}

@[simp] theorem refuses_ok {a : α} : Refuses (.ok a : Except S3Error α) := by
  intro e h
  cases h

@[simp] theorem refuses_error {e : S3Error} : Refuses (.error e : Except S3Error α) ↔ e.code ≠ .notImplemented :=
  ⟨fun h => h e rfl, fun h e' he => by cases he; exact h⟩

theorem Refuses.bind {x : Except S3Error α} {f : α → Except S3Error β} (hx : Refuses x) (hf : ∀ a, Refuses (f a)) :
    Refuses (x >>= f) := by
  cases x with
  | error e => exact refuses_error.mpr (hx e rfl)
  | ok a => exact hf a

@[simp] theorem refuses_bind_ok {a : α} {f : α → Except S3Error β} : Refuses (Except.ok a >>= f) ↔ Refuses (f a) := Iff.rfl

@[simp] theorem refuses_bind_error {e : S3Error} {f : α → Except S3Error β} :
    Refuses (Except.error e >>= f) ↔ e.code ≠ .notImplemented := refuses_error

@[simp] theorem refuses_pure {a : α} : Refuses (pure a : Except S3Error α) := refuses_ok

theorem Refuses.map {x : Except S3Error α} {f : α → β} (hx : Refuses x) : Refuses (x.map f) := by
  cases x with
  | error e => exact refuses_error.mpr (hx e rfl)
  | ok a => exact refuses_ok

theorem Refuses.mapError {E : Type} {x : Except E α} {f : E → S3Error} (hf : ∀ e, (f e).code ≠ .notImplemented) :
    Refuses (x.mapError f) := by
  cases x with
  | error e => exact refuses_error.mpr (hf e)
  | ok a => exact refuses_ok

/-- `.map_err(|e| e.with_resource(..))` -/
theorem Refuses.withResource {x : Except S3Error α} {resource : Str} (hx : Refuses x) :
    Refuses (x.mapError (·.withResource resource)) := by
  cases x with
  | error e => exact refuses_error.mpr (hx e rfl)
  | ok a => exact refuses_ok

end

@[simp] theorem withResource_code (e : S3Error) (resource : Str) : (e.withResource resource).code = e.code := rfl

@[simp] theorem new_code (code : S3ErrorCode) (message : Str) : (S3Error.new code message).code = code := rfl

@[simp] theorem invalid_code (message : Str) : (invalid message).code = .invalidArgument := rfl

@[simp] theorem invalidRequest_code (message : Str) : (invalidRequest message).code = .invalidRequest := rfl

@[simp] theorem mapMetaErr_code (e : MetaError) : (mapMetaErr e).code = .internalError := rfl

namespace Handler

variable {α β : Type}

/-! ## Handlers -/

/-- Every operation is allowed, and nothing is assumed of its reply. -/
def anything : Prog.Protocol Op Op.Res Unit := ⟨fun _ _ => True, fun _ _ _ => True, fun _ _ _ => ()⟩

/-- A returned value is in `Q`, and an error is another than NotImplemented. -/
def Outcome (Q : α → Prop) : Except Failure α → Prop
  | .ok a => Q a
  | .error (.error e) => e.code ≠ .notImplemented
  | .error .panicked => True

def Yields (x : Handler α) (Q : α → Prop) : Prop := Prog.Follows anything x (fun r _ => Outcome Q r) ()

theorem Yields.mono {x : Handler α} {Q Q' : α → Prop} (h : Yields x Q) (hq : ∀ a, Q a → Q' a) : Yields x Q' := by
  refine Prog.Follows.mono h fun r _ hr => ?_
  rcases r with (e | _) | a
  · exact hr
  · trivial
  · exact hq a hr

@[simp] theorem yields_ok {a : α} {Q : α → Prop} : Yields (ok a) Q ↔ Q a := Iff.rfl

@[simp] theorem yields_pure {a : α} {Q : α → Prop} : Yields (pure a) Q ↔ Q a := Iff.rfl

@[simp] theorem yields_fail {e : S3Error} {Q : α → Prop} : Yields (fail e) Q ↔ e.code ≠ .notImplemented := Iff.rfl

@[simp] theorem yields_panicked {Q : α → Prop} : Yields panicked Q := trivial

@[simp] theorem yields_bind {x : Handler α} {f : α → Handler β} {Q : β → Prop} :
    Yields (x >>= f) Q ↔ Yields x fun a => Yields (f a) Q := by
  refine Prog.follows_bind.trans (iff_of_eq (congrArg (fun R => Prog.Follows anything x R ()) ?_))
  funext r _
  rcases r with (e | _) | a <;> rfl

@[simp] theorem yields_op {o : Op} {Q : o.Res → Prop} : Yields (α := no_index o.Res) (op o) Q ↔ ∀ r, Q r :=
  ⟨fun h r => h.2 r trivial, fun h => ⟨trivial, fun r _ => h r⟩⟩

theorem yields_ofExcept {r : Except S3Error α} {Q : α → Prop} (hr : Refuses r) (hq : ∀ a, Q a) : Yields (ofExcept r) Q := by
  cases r with
  | ok a => exact hq a
  | error e => exact hr e rfl

@[simp] theorem yields_orFail {o : Option α} {e : S3Error} {Q : α → Prop} :
    Yields (orFail o e) Q ↔ (o = none → e.code ≠ .notImplemented) ∧ ∀ a, o = some a → Q a := by
  cases o <;> simp [orFail, ofExcept]

@[simp] theorem yields_mapErr {f : MetaError → S3Error} {r : Except MetaError α} {Q : α → Prop} :
    Yields (mapErr f r) Q ↔ (∀ e, r = .error e → (f e).code ≠ .notImplemented) ∧ ∀ a, r = .ok a → Q a := by
  cases r with
  | ok a => simp [mapErr]
  | error e => simp [mapErr]

@[simp] theorem yields_ensure {p : Prop} [Decidable p] {e : S3Error} {Q : Unit → Prop} :
    Yields (ensure p e) Q ↔ (p → Q ()) ∧ (¬ p → e.code ≠ .notImplemented) := by
  by_cases h : p <;> simp [ensure, h]

/-! ## The shared helpers -/

theorem yields_requireBucket {bucket : Str} {Q : BucketConfig → Prop} (hq : ∀ cfg, Q cfg) : Yields (requireBucket bucket) Q := by
  simp [requireBucket, noSuchBucket, hq]

theorem yields_gcFreedParts {freed : List Hash} {Q : Unit → Prop} (hq : Q ()) : Yields (gcFreedParts freed) Q := by
  have hc : ∀ hash (Q : Bool → Prop), (∀ b, Q b) → Yields (collectPart hash) Q := by
    intro hash Q hb
    simp only [collectPart, yields_bind, yields_op]
    intro granted
    cases granted with
    | error e => exact hb _
    | ok granted => cases granted <;> simp [hb]
  induction freed with
  | nil => exact hq
  | cons hash freed ih =>
    simp only [gcFreedParts, yields_bind]
    exact hc hash _ fun _ => ih

theorem yields_etagOf {env : Env} {m : Manifest} {Q : Str → Prop} (hq : ∀ etag, Q etag) : Yields (etagOf env m) Q := by
  unfold etagOf
  split
  · exact hq _
  · trivial

theorem yields_nextVersionId {v : VersioningState} {Q : Str → Prop} (hq : ∀ s, Q s) : Yields (nextVersionId v) Q := by
  cases v
  case enabled => exact yields_op.mpr hq
  all_goals exact hq _

theorem yields_lookupVersion {bucket key : Str} {vid : Option Str} {Q : Option Manifest → Prop} (hq : ∀ m, Q m) :
    Yields (lookupVersion bucket key vid) Q := by
  cases vid <;> exact yields_op.mpr hq

theorem yields_loadTarget {bucket key : Str} {vid : Option Str} {Q : Manifest → Prop} (hq : ∀ m, Q m) :
    Yields (loadTarget bucket key vid) Q := by
  simp only [loadTarget, yields_bind]
  exact yields_lookupVersion fun m => by simp [noSuchKey, hq]

theorem yields_bucketUpdated {bucket : Str} {status : Nat} {r : Except MetaError Unit} {Q : Response → Prop}
    (hq : Q (.ofStatus status)) : Yields (bucketUpdated bucket status r) Q := by
  unfold bucketUpdated
  split
  · exact hq
  all_goals simp [noSuchBucket]

end Handler

/-! ## Plain responses -/

/-- Neither the status 501 nor the CORS header. -/
def Response.Plain (r : Response) : Prop := r.status ≠ 501 ∧ ∀ h ∈ r.headers, h.1 ≠ str "access-control-allow-origin"

@[simp] theorem plain_ofStatus {status : Nat} : (Response.ofStatus status).Plain ↔ status ≠ 501 :=
  ⟨fun h => h.1, fun h => ⟨h, fun _ hm => absurd hm List.not_mem_nil⟩⟩

@[simp] theorem plain_ofXml (doc : XmlDoc) : (Response.ofXml doc).Plain := by
  refine ⟨by show 200 ≠ 501; omega, fun h hm => ?_⟩
  rw [List.mem_singleton.mp hm]
  decide

theorem plain_ofError {e : S3Error} (h : e.code ≠ .notImplemented) : (Response.ofError e).Plain := by
  refine ⟨?_, fun h hm => ?_⟩
  · show e.code.status ≠ 501
    cases hc : e.code
    case notImplemented => exact absurd hc h
    all_goals decide
  · rw [List.mem_singleton.mp hm]
    decide

theorem Response.Plain.setHeader {r : Response} (h : r.Plain) {name value : Str}
    (hn : toAsciiLower name ≠ str "access-control-allow-origin") : (r.setHeader name value).Plain := by
  refine ⟨h.1, fun x hx => ?_⟩
  unfold Response.setHeader S3lite.setHeader at hx
  dsimp only at hx
  split at hx
  · rcases List.mem_append.mp hx with hx | hx
    · exact h.2 x (List.mem_filter.mp hx).1
    · rw [List.mem_singleton.mp hx]
      exact hn
  · exact h.2 x hx

/-! ## The parsers -/

theorem refuses_parseContentMd5 {env : Env} {code : S3ErrorCode} (hc : code ≠ .notImplemented) (headers : HeaderMap) :
    Refuses (parseContentMd5 env code headers) := by
  unfold parseContentMd5
  repeat' split
  all_goals simp [hc]

theorem refuses_findChecksum (headers : HeaderMap) (found : Option (ChecksumAlgorithm × Str)) (algos : List ChecksumAlgorithm) :
    Refuses (Checksum.findChecksum headers found algos) := by
  induction algos generalizing found with
  | nil => exact refuses_ok
  | cons algo algos ih =>
    unfold Checksum.findChecksum
    repeat' split
    all_goals first
      | exact ih _
      | simp

theorem refuses_parseRequestChecksum (env : Env) (headers : HeaderMap) : Refuses (Checksum.parseRequestChecksum env headers) := by
  unfold Checksum.parseRequestChecksum
  split
  · rename_i e he
    exact refuses_error.mpr (refuses_findChecksum _ _ _ e he)
  · exact refuses_ok
  · repeat' split
    all_goals simp

theorem refuses_verifyGiven (env : Env) (body : Bytes) (c : Option AdditionalChecksum) : Refuses (verifyGiven env body c) := by
  unfold verifyGiven Checksum.verify
  repeat' split
  all_goals simp

theorem refuses_parseXAmzTagging (headers : HeaderMap) : Refuses (parseXAmzTagging headers) := by
  unfold parseXAmzTagging
  repeat' split
  all_goals simp

theorem refuses_parseMode (value : Option Str) : Refuses (parseMode value) := by
  unfold parseMode
  repeat' split
  all_goals simp

theorem refuses_parseLockHeaders (env : Env) (headers : HeaderMap) : Refuses (parseLockHeaders env headers) := by
  unfold parseLockHeaders
  dsimp only
  split
  · exact refuses_ok
  split
  · refine (refuses_parseMode _).bind fun mode => ?_
    split
    · refine refuses_bind_ok.mpr ?_
      repeat' split
      all_goals simp
    · simp
  · refine refuses_bind_ok.mpr ?_
    repeat' split
    all_goals simp
  · simp

theorem refuses_parseU64 (s msg : Str) : Refuses (parseU64 s msg) := by
  unfold parseU64
  split <;> simp

theorem refuses_parseRangeHeader (headers : HeaderMap) (size : Nat) : Refuses (parseRangeHeader headers size) := by
  unfold parseRangeHeader
  dsimp only
  split
  · exact refuses_ok
  split
  · simp
  split
  · simp
  split
  · simp
  split
  · simp
  split
  · exact (refuses_parseU64 _ _).bind fun _ => (refuses_parseU64 _ _).bind fun _ => by simp
  · exact (refuses_parseU64 _ _).bind fun _ => by simp
  · refine (refuses_parseU64 _ _).bind fun _ => ?_
    split <;> simp
  · simp

theorem refuses_copySourceRange (bucket key : Str) (headers : HeaderMap) (size : Nat) :
    Refuses (copySourceRange bucket key headers size) := by
  unfold copySourceRange parseCopyRange
  split
  · split
    · simp
    · split
      · simp
      · split
        · simp
        · refine (refuses_parseU64 _ _).bind fun _ => (refuses_parseU64 _ _).bind fun _ => ?_
          repeat' split
          all_goals simp
  · split <;> simp

theorem refuses_selectParts (bucket key : Str) (stored : List PartRef) (reqs : List (Nat × Str)) :
    Refuses (selectParts bucket key stored reqs) := by
  induction reqs with
  | nil => exact refuses_ok
  | cons req reqs ih =>
    unfold selectParts
    split
    · simp
    · split
      · exact ih.map
      · simp

theorem refuses_parseMaxKeys (v : Option Str) : Refuses (parseMaxKeys v) := by
  unfold parseMaxKeys
  repeat' split
  all_goals simp

theorem refuses_parseEncoding (v : Option Str) : Refuses (parseEncoding v) := by
  unfold parseEncoding
  repeat' split
  all_goals simp

theorem refuses_listV2Cursor (env : Env) (params : Params) : Refuses (listV2Cursor env params) := by
  unfold listV2Cursor
  split
  · exact (Refuses.mapError fun e => by simp).map
  · exact refuses_ok

theorem refuses_versionsQuery (params : Params) : Refuses (VersionsQuery.parse params) :=
  (refuses_parseMaxKeys _).bind fun _ => (refuses_parseEncoding _).bind fun _ => refuses_ok

theorem refuses_versioningStateOf (bucket : Str) (status : Option Str) : Refuses (versioningStateOf bucket status) := by
  unfold versioningStateOf
  repeat' split
  all_goals simp

theorem refuses_parseDefaultRetention (d : Option DefaultRetentionXml) : Refuses (parseDefaultRetention d) := by
  unfold parseDefaultRetention
  split
  · exact (refuses_parseMode _).map
  · exact refuses_ok

theorem refuses_legalHoldOf (bucket key status : Str) : Refuses (legalHoldOf bucket key status) := by
  unfold legalHoldOf
  repeat' split
  all_goals simp

/-! ## The handlers -/

namespace Handler

variable {env : Env}

/-! ### Buckets -/

theorem yields_listBuckets : Yields (listBuckets env) Response.Plain := by
  simp [listBuckets]

theorem yields_createBucket (bucket : Str) (headers : HeaderMap) : Yields (createBucket env bucket headers) Response.Plain := by
  simp only [createBucket, yields_bind, yields_op]
  intro now r
  split
  · exact (plain_ofStatus.mpr (by omega)).setHeader (by decide)
  · simp
  · simp

theorem yields_deleteBucket (bucket : Str) : Yields (deleteBucket bucket) Response.Plain := by
  simp only [deleteBucket, yields_bind, yields_op]
  intro r
  split <;> simp [noSuchBucket]

theorem yields_headBucket (bucket : Str) : Yields (headBucket bucket) Response.Plain := by
  simp only [headBucket, yields_bind]
  exact yields_requireBucket fun cfg => plain_ofStatus.mpr (by omega)

theorem yields_getBucketLocation (bucket : Str) : Yields (getBucketLocation bucket) Response.Plain := by
  simp only [getBucketLocation, yields_bind]
  exact yields_requireBucket fun cfg => plain_ofXml _

theorem yields_putBucketVersioning (bucket : Str) (body : Bytes) :
    Yields (putBucketVersioning env bucket body) Response.Plain := by
  simp only [putBucketVersioning, yields_bind]
  refine yields_ofExcept (Refuses.mapError fun e => by simp) fun status => ?_
  refine yields_ofExcept (refuses_versioningStateOf _ _) fun state => ?_
  exact yields_op.mpr fun r => yields_bucketUpdated (plain_ofStatus.mpr (by omega))

theorem yields_getBucketVersioning (bucket : Str) : Yields (getBucketVersioning bucket) Response.Plain := by
  simp only [getBucketVersioning, yields_bind]
  exact yields_requireBucket fun cfg => plain_ofXml _

theorem yields_putBucketLifecycle (bucket : Str) (body : Bytes) : Yields (putBucketLifecycle env bucket body) Response.Plain := by
  simp only [putBucketLifecycle, yields_bind]
  refine yields_ofExcept (Refuses.mapError fun e => by simp) fun parsed => ?_
  exact yields_op.mpr fun r => yields_bucketUpdated (plain_ofStatus.mpr (by omega))

theorem yields_getBucketLifecycle (bucket : Str) : Yields (getBucketLifecycle bucket) Response.Plain := by
  simp only [getBucketLifecycle, yields_bind]
  exact yields_requireBucket fun cfg => by simp

theorem yields_deleteBucketLifecycle (bucket : Str) : Yields (deleteBucketLifecycle bucket) Response.Plain := by
  simp only [deleteBucketLifecycle, yields_bind]
  exact yields_op.mpr fun r => yields_bucketUpdated (plain_ofStatus.mpr (by omega))

theorem yields_putBucketCors (bucket : Str) (body : Bytes) : Yields (putBucketCors env bucket body) Response.Plain := by
  simp only [putBucketCors, yields_bind]
  refine yields_ofExcept (Refuses.mapError fun e => by simp) fun rules => ?_
  exact yields_op.mpr fun r => yields_bucketUpdated (plain_ofStatus.mpr (by omega))

theorem yields_getBucketCors (bucket : Str) : Yields (getBucketCors bucket) Response.Plain := by
  simp only [getBucketCors, yields_bind]
  exact yields_requireBucket fun cfg => by simp

theorem yields_deleteBucketCors (bucket : Str) : Yields (deleteBucketCors bucket) Response.Plain := by
  simp only [deleteBucketCors, yields_bind]
  exact yields_op.mpr fun r => yields_bucketUpdated (plain_ofStatus.mpr (by omega))

theorem yields_putBucketObjectLock (bucket : Str) (body : Bytes) :
    Yields (putBucketObjectLockConfig env bucket body) Response.Plain := by
  simp only [putBucketObjectLockConfig, yields_bind]
  refine yields_ofExcept (Refuses.mapError fun e => by simp) fun xml => ?_
  refine yields_requireBucket fun existing => yields_ensure.mpr ⟨fun _ => ?_, fun _ => by simp⟩
  exact yields_ofExcept (refuses_parseDefaultRetention _) fun d => yields_op.mpr fun r => by simp

theorem yields_getBucketObjectLock (bucket : Str) : Yields (getBucketObjectLockConfig bucket) Response.Plain := by
  simp only [getBucketObjectLockConfig, yields_bind]
  exact yields_requireBucket fun cfg => plain_ofXml _

/-! ### Listings -/

theorem yields_splitItems (encoding : Option Str) (items : List ListItem) {Q : List ObjectContent × List Str → Prop}
    (hq : ∀ r, Q r) : Yields (splitItems env encoding items) Q := by
  induction items generalizing Q with
  | nil => exact hq _
  | cons item items ih =>
    cases item with
    | object m =>
      simp only [splitItems, yields_bind]
      exact yields_etagOf fun etag => ih fun rest => hq _
    | commonPrefix p =>
      simp only [splitItems, yields_bind]
      exact ih fun rest => hq _

theorem yields_listObjects (bucket query : Str) : Yields (listObjects env bucket query) Response.Plain := by
  simp only [listObjects, yields_bind]
  refine yields_requireBucket fun cfg => ?_
  split
  · simp only [listV2, yields_bind]
    refine yields_ofExcept (refuses_parseMaxKeys _) fun maxKeys => yields_ofExcept (refuses_parseEncoding _) fun encoding => ?_
    refine yields_ofExcept (refuses_listV2Cursor _ _) fun cursor => yields_op.mpr fun page => ?_
    exact yields_splitItems _ _ fun split => plain_ofXml _
  · simp only [listV1, yields_bind]
    refine yields_ofExcept (refuses_parseMaxKeys _) fun maxKeys => yields_ofExcept (refuses_parseEncoding _) fun encoding => ?_
    exact yields_op.mpr fun page => yields_splitItems _ _ fun split => plain_ofXml _

theorem yields_splitVersions (encoding : Option Str) (entries : List ListObjectVersionEntry)
    {Q : List ObjectVersion × List DeleteMarkerEntry → Prop} (hq : ∀ r, Q r) : Yields (splitVersions env encoding entries) Q := by
  induction entries generalizing Q with
  | nil => exact hq _
  | cons entry entries ih =>
    unfold splitVersions
    dsimp only
    split <;> simp only [yields_bind]
    · exact yields_etagOf fun etag => ih fun rest => hq _
    · exact ih fun rest => hq _

theorem yields_listObjectVersions (bucket query : Str) : Yields (listObjectVersions env bucket query) Response.Plain := by
  simp only [listObjectVersions, yields_bind]
  refine yields_requireBucket fun cfg => yields_ofExcept (refuses_versionsQuery _) fun q => yields_op.mpr fun page => ?_
  exact yields_splitVersions _ _ fun split => plain_ofXml _

/-! ### Multipart uploads -/

theorem yields_findUpload (bucket key uploadId : Str) {Q : Manifest → Prop} (hq : ∀ m, Q m) :
    Yields (findUpload bucket key uploadId) Q := by
  simp [findUpload, noSuchUpload, hq]

theorem mapUploadMetaErr_code (bucket key uploadId : Str) (e : MetaError) :
    (mapUploadMetaErr bucket key uploadId e).code ≠ .notImplemented := by
  unfold mapUploadMetaErr
  split <;> simp [noSuchUpload]

theorem yields_createMultipartUpload (bucket key : Str) (headers : HeaderMap) :
    Yields (createMultipartUpload bucket key headers) Response.Plain := by
  simp only [createMultipartUpload, yields_bind, yields_op, yields_mapErr]
  refine yields_requireBucket fun cfg uploadId now r => ⟨fun e _ => by simp, fun effect _ => ?_⟩
  exact yields_gcFreedParts (plain_ofXml _)

theorem yields_uploadPart (bucket key uploadId : Str) (partNumber : Nat) (headers : HeaderMap) (body : Bytes) :
    Yields (uploadPart env bucket key uploadId partNumber headers body) Response.Plain := by
  simp only [uploadPart, yields_bind]
  refine yields_ensure.mpr ⟨fun _ => ?_, fun _ => by simp [partNumberError]⟩
  refine yields_ofExcept (refuses_parseContentMd5 (by simp) _) fun expected => ?_
  refine yields_ensure.mpr ⟨fun _ => ?_, fun _ => by simp⟩
  refine yields_op.mpr fun partResult => yields_op.mpr fun r => yields_mapErr.mpr ⟨fun e _ => mapUploadMetaErr_code _ _ _ e, fun effect _ => ?_⟩
  exact yields_gcFreedParts ((plain_ofStatus.mpr (by omega)).setHeader (by decide))

theorem yields_resolveSource (source : CopySource) {Q : Manifest → Prop} (hq : ∀ m, Q m) : Yields (resolveSource source) Q := by
  simp only [resolveSource, yields_bind]
  exact yields_lookupVersion fun m => by simp [hq]

theorem plain_withSourceVersion {source : CopySource} {resp : Response} (h : resp.Plain) :
    (withSourceVersion source resp).Plain := by
  unfold withSourceVersion
  split
  · exact h.setHeader (by decide)
  · exact h

theorem yields_readRange (first last cursor : Nat) (parts : List PartRef) {Q : Bytes → Prop} (hq : ∀ b, Q b) :
    Yields (readRange env first last cursor parts) Q := by
  induction parts generalizing cursor Q with
  | nil => exact hq _
  | cons p ps ih =>
    have hend : ∀ {Q : Nat → Prop}, (∀ n, Q n) → Yields (partEnd env cursor p.size) Q := by
      intro Q hq
      unfold partEnd
      repeat' split
      all_goals simp [hq]
    have hslice : ∀ {buf : Bytes} {start end_ : Nat} {Q : Bytes → Prop}, (∀ b, Q b) → Yields (sliceExclusive buf start end_) Q := by
      intro buf start end_ Q hq
      unfold sliceExclusive
      split <;> simp [hq]
    simp only [readRange, yields_bind]
    refine hend fun end_ => ?_
    split
    · exact ih _ hq
    · simp only [yields_bind, yields_op, yields_orFail]
      exact fun file => ⟨fun _ => by simp [partOpenFailed], fun buf _ => hslice fun chunk => ih _ fun rest => hq _⟩

theorem yields_uploadPartCopy (bucket key uploadId : Str) (partNumber : Nat) (source : CopySource) (headers : HeaderMap) :
    Yields (uploadPartCopy env bucket key uploadId partNumber source headers) Response.Plain := by
  simp only [uploadPartCopy, yields_bind]
  refine yields_ensure.mpr ⟨fun _ => ?_, fun _ => by simp [partNumberError]⟩
  refine yields_resolveSource _ fun m => yields_ofExcept (refuses_copySourceRange _ _ _ _) fun range => ?_
  refine yields_readRange _ _ _ _ fun payload => yields_op.mpr fun partResult => yields_op.mpr fun r => ?_
  refine yields_mapErr.mpr ⟨fun e _ => mapUploadMetaErr_code _ _ _ e, fun effect _ => yields_gcFreedParts ?_⟩
  exact yields_op.mpr fun now => plain_withSourceVersion (plain_ofXml _)

theorem yields_completeMultipartUpload (bucket key uploadId : Str) (body : Bytes) :
    Yields (completeMultipartUpload env bucket key uploadId body) Response.Plain := by
  simp only [completeMultipartUpload, yields_bind]
  refine yields_ofExcept (Refuses.mapError fun e => by simp) fun request => ?_
  refine yields_ensure.mpr ⟨fun _ => yields_ensure.mpr ⟨fun _ => ?_, fun _ => by simp⟩, fun _ => by simp⟩
  refine yields_findUpload _ _ _ fun up => yields_ofExcept (refuses_selectParts _ _ _ _) fun selected => ?_
  unfold checkSizeSum
  split
  · trivial
  · refine yields_op.mpr fun now => yields_etagOf fun etag => yields_op.mpr fun r => ?_
    exact yields_mapErr.mpr ⟨fun e _ => by simp, fun effect _ => yields_gcFreedParts (plain_ofXml _)⟩

theorem yields_abortMultipartUpload (bucket key uploadId : Str) :
    Yields (abortMultipartUpload bucket key uploadId) Response.Plain := by
  simp only [abortMultipartUpload, yields_bind]
  refine yields_findUpload _ _ _ fun up => yields_op.mpr fun r => yields_mapErr.mpr ⟨fun e _ => by simp, fun effect _ => ?_⟩
  exact yields_gcFreedParts (plain_ofStatus.mpr (by omega))

theorem yields_listParts (bucket key uploadId : Str) : Yields (listParts env bucket key uploadId) Response.Plain := by
  simp only [listParts, yields_bind]
  exact yields_findUpload _ _ _ fun up => plain_ofXml _

/-! ### Objects -/

theorem headerNameFor_plain (algo : ChecksumAlgorithm) :
    toAsciiLower (Checksum.headerNameFor algo) ≠ str "access-control-allow-origin" := by
  cases algo <;> decide

theorem plain_withChecksumHeader {resp : Response} {c : Option AdditionalChecksum} (h : resp.Plain) :
    (withChecksumHeader env resp c).Plain := by
  unfold withChecksumHeader
  split
  · exact h.setHeader (headerNameFor_plain _)
  · exact h

theorem yields_lockForPut {cfg : Option ObjectLockConfig} {l : Option ObjectLock} {Q : Option ObjectLock → Prop}
    (hq : ∀ l, Q l) : Yields (lockForPut cfg l) Q := by
  unfold lockForPut defaultLockForBucket
  split
  · exact hq _
  · split
    · exact hq _
    · simp only [yields_bind]
      refine yields_op.mpr fun now => ?_
      split
      · exact hq _
      · simp only [yields_bind, addDays]
        split
        · exact hq _
        · trivial

theorem yields_checkPutPreconditions (bucket key : Str) (headers : HeaderMap) {Q : Unit → Prop} (hq : Q ()) :
    Yields (checkPutPreconditions env bucket key headers) Q := by
  have hmatch : ∀ existing raw {Q : Bool → Prop}, (∀ b, Q b) → Yields (existingMatches env existing raw) Q := by
    intro existing raw Q hq
    unfold existingMatches
    split
    · exact hq _
    · simp only [yields_bind]
      exact yields_etagOf fun etag => hq _
  have him : ∀ existing im, Yields (checkIfMatch env bucket key existing im) fun _ => True := by
    intro existing im
    unfold checkIfMatch
    split
    · trivial
    · simp only [yields_bind]
      exact hmatch _ _ fun b => by simp [preconditionFailed]
  have hinm : ∀ existing inm, Yields (checkIfNoneMatch env bucket key existing inm) Q := by
    intro existing inm
    unfold checkIfNoneMatch
    split
    · exact hq
    · simp only [yields_bind]
      exact hmatch _ _ fun b => by simp [preconditionFailed, hq]
  unfold checkPutPreconditions
  dsimp only
  split
  · exact hq
  · simp only [yields_bind]
    exact yields_op.mpr fun found => (him _ _).mono fun _ _ => hinm _ _

theorem yields_putObject (bucket key : Str) (headers : HeaderMap) (body : Bytes) :
    Yields (putObject env bucket key headers body) Response.Plain := by
  simp only [putObject, yields_bind]
  refine yields_requireBucket fun cfg => yields_checkPutPreconditions _ _ _ ?_
  refine yields_ofExcept (refuses_parseContentMd5 (by simp) _) fun expected => yields_ensure.mpr ⟨fun _ => ?_, fun _ => by simp⟩
  refine yields_ofExcept (refuses_parseRequestChecksum _ _).withResource fun checksum => ?_
  refine yields_ofExcept (refuses_verifyGiven _ _ _).withResource fun _ => yields_op.mpr fun partResult => ?_
  refine yields_nextVersionId fun versionId => yields_ofExcept (refuses_parseXAmzTagging _).withResource fun tags => ?_
  refine yields_ofExcept (refuses_parseLockHeaders _ _).withResource fun headerLock => yields_lockForPut fun lock => ?_
  refine yields_op.mpr fun now => yields_etagOf fun etag => yields_op.mpr fun r => ?_
  refine yields_mapErr.mpr ⟨fun e _ => by simp, fun effect _ => yields_gcFreedParts (plain_withChecksumHeader ?_)⟩
  split
  · exact ((plain_ofStatus.mpr (by omega)).setHeader (by decide)).setHeader (by decide)
  · exact (plain_ofStatus.mpr (by omega)).setHeader (by decide)

theorem yields_copyObject (bucket key : Str) (source : CopySource) (headers : HeaderMap) :
    Yields (copyObject env bucket key source headers) Response.Plain := by
  simp only [copyObject, yields_bind]
  refine yields_op.mpr fun found => yields_orFail.mpr ⟨fun _ => by simp, fun cfg _ => yields_resolveSource _ fun m => ?_⟩
  refine yields_nextVersionId fun versionId => yields_op.mpr fun now => yields_etagOf fun etag => yields_op.mpr fun r => ?_
  refine yields_mapErr.mpr ⟨fun e _ => by simp, fun effect _ => yields_gcFreedParts (plain_withSourceVersion ?_)⟩
  split
  · exact (plain_ofXml _).setHeader (by decide)
  · exact plain_ofXml _

theorem plain_preconditions {headers : HeaderMap} {etag bucket key : Str} {lastModified : Time} {resp : Response}
    (h : evaluatePreconditions env headers etag lastModified bucket key = some resp) : resp.Plain := by
  unfold evaluatePreconditions at h
  dsimp only at h
  repeat' split at h
  all_goals cases h
  all_goals first
    | exact plain_ofError (by simp [preconditionFailed])
    | simp

/-- A header of user metadata starts with `x`. -/
theorem plain_metadata (rows : List (Str × Str)) {resp : Response} (h : resp.Plain) :
    (rows.foldl (fun resp kv => resp.setHeader (str "x-amz-meta-" ++ kv.1) kv.2) resp).Plain := by
  induction rows generalizing resp with
  | nil => exact h
  | cons kv rows ih =>
    refine ih (h.setHeader fun he => ?_)
    have h120 : some (120 : UInt8) = some 97 := congrArg List.head? he
    cases h120

theorem plain_objectHeaders {m : Manifest} {etag : Str} {range : Option (Nat × Nat)} {resp : Response} (h : resp.Plain) :
    (objectHeaders env m etag range resp).Plain := by
  unfold objectHeaders
  refine plain_metadata _ ?_
  split
  · refine plain_withChecksumHeader (Response.Plain.setHeader (Response.Plain.setHeader ?_ (by decide)) (by decide))
    split
    all_goals repeat refine Response.Plain.setHeader ?_ (by decide)
    all_goals exact h
  · refine Response.Plain.setHeader (Response.Plain.setHeader ?_ (by decide)) (by decide)
    split
    all_goals repeat refine Response.Plain.setHeader ?_ (by decide)
    all_goals exact h

theorem yields_readParts (parts : List PartRef) {Q : Bytes → Prop} (hq : ∀ b, Q b) : Yields (readParts parts) Q := by
  induction parts generalizing Q with
  | nil => exact hq _
  | cons p ps ih =>
    simp only [readParts, yields_bind]
    refine yields_op.mpr fun file => yields_orFail.mpr ⟨fun _ => by simp [partOpenFailed], fun data _ => ?_⟩
    exact ih fun rest => hq _

theorem yields_getOrHeadObject (bucket key : Str) (versionId : Option Str) (headers : HeaderMap) (bodyOnlyHeaders : Bool) :
    Yields (getOrHeadObject env bucket key versionId headers bodyOnlyHeaders) Response.Plain := by
  have hfind : ∀ {Q : Manifest → Prop}, (∀ m, Q m) → Yields (findVersion bucket key versionId) Q := by
    intro Q hq
    unfold findVersion
    split <;> simp [noSuchKey, hq]
  have hread : ∀ {m : Manifest} {range : Option (Nat × Nat)} {Q : Bytes → Prop}, (∀ b, Q b) →
      Yields (readBody m bodyOnlyHeaders range) Q := by
    intro m range Q hq
    unfold readBody
    split
    · exact hq _
    · simp only [yields_bind]
      refine yields_readParts _ fun buf => ?_
      split
      · unfold sliceInclusive
        split <;> simp [hq]
      · exact hq _
  simp only [getOrHeadObject, yields_bind]
  refine yields_requireBucket fun cfg => hfind fun m => yields_ensure.mpr ⟨fun _ => ?_, fun _ => ?_⟩
  · refine yields_etagOf fun etag => ?_
    split
    · rename_i resp hpre
      exact plain_preconditions hpre
    · simp only [yields_bind]
      refine yields_ofExcept (refuses_parseRangeHeader _ _) fun range => hread fun body => plain_objectHeaders ⟨?_, ?_⟩
      · show (if range.isSome then 206 else 200) ≠ 501
        split <;> omega
      · exact fun _ hm => absurd hm List.not_mem_nil
  · split <;> simp [noSuchKey]

theorem yields_checkNotLocked (bucket key : Str) (m : Option Manifest) {Q : Unit → Prop} (hq : Q ()) :
    Yields (checkNotLocked bucket key m) Q := by
  unfold checkNotLocked
  split
  · exact hq
  · simp [lockedError, hq]

theorem yields_removeManifest (key : ManifestKey) {Q : Bool → Prop} (hq : ∀ b, Q b) : Yields (removeManifest key) Q := by
  simp only [removeManifest, yields_bind]
  refine yields_op.mpr fun r => ?_
  split
  · simp only [yields_bind]
    exact yields_gcFreedParts (hq _)
  · exact hq _
  · simp

theorem yields_deleteObject (bucket key : Str) (versionId : Option Str) :
    Yields (deleteObject bucket key versionId) Response.Plain := by
  simp only [deleteObject, yields_bind]
  refine yields_requireBucket fun cfg => ?_
  have hmarker : ∀ v, Yields (insertDeleteMarker bucket key v) Response.Plain := by
    intro v
    simp only [insertDeleteMarker, yields_bind]
    refine yields_nextVersionId fun versionId => yields_op.mpr fun now => yields_op.mpr fun r => ?_
    refine yields_mapErr.mpr ⟨fun e _ => by simp, fun effect _ => yields_gcFreedParts ?_⟩
    split
    · exact ((plain_ofStatus.mpr (by omega)).setHeader (by decide)).setHeader (by decide)
    · exact (plain_ofStatus.mpr (by omega)).setHeader (by decide)
  split
  · simp only [deleteSpecificVersion, yields_bind]
    refine yields_op.mpr fun found => yields_checkNotLocked _ _ _ (yields_removeManifest _ fun removed => ?_)
    show Response.Plain (if _ then _ else _)
    split
    · exact ((plain_ofStatus.mpr (by omega)).setHeader (by decide)).setHeader (by decide)
    · exact (plain_ofStatus.mpr (by omega)).setHeader (by decide)
  · split
    · simp only [yields_bind]
      refine yields_op.mpr fun current => yields_checkNotLocked _ _ _ (yields_removeManifest _ fun removed => ?_)
      exact plain_ofStatus.mpr (by omega)
    all_goals exact hmarker _

/-! ### Tags, retention and legal hold -/

theorem yields_getObjectTagging (bucket key : Str) (versionId : Option Str) :
    Yields (getObjectTagging bucket key versionId) Response.Plain := by
  simp only [getObjectTagging, yields_bind]
  exact yields_loadTarget fun m => plain_ofXml _

theorem yields_putObjectTagging (bucket key : Str) (versionId : Option Str) (body : Bytes) :
    Yields (putObjectTagging env bucket key versionId body) Response.Plain := by
  simp only [putObjectTagging, yields_bind]
  refine yields_loadTarget fun m => yields_ofExcept (Refuses.mapError fun e => by simp) fun parsed => ?_
  exact yields_op.mpr fun r => by simp

theorem yields_deleteObjectTagging (bucket key : Str) (versionId : Option Str) :
    Yields (deleteObjectTagging bucket key versionId) Response.Plain := by
  simp only [deleteObjectTagging, yields_bind]
  exact yields_loadTarget fun m => yields_op.mpr fun r => by simp

theorem yields_putObjectRetention (bucket key : Str) (versionId : Option Str) (body : Bytes) :
    Yields (putObjectRetention env bucket key versionId body) Response.Plain := by
  simp only [putObjectRetention, yields_bind]
  refine yields_ofExcept (Refuses.mapError fun e => by simp) fun xml => yields_ofExcept (refuses_parseMode _) fun mode => ?_
  refine yields_orFail.mpr ⟨fun _ => by simp, fun retainUntil _ => yields_loadTarget fun m => ?_⟩
  exact yields_ensure.mpr ⟨fun _ => yields_op.mpr fun r => by simp, fun _ => by simp⟩

theorem yields_getObjectRetention (bucket key : Str) (versionId : Option Str) :
    Yields (getObjectRetention env bucket key versionId) Response.Plain := by
  simp only [getObjectRetention, yields_bind]
  exact yields_loadTarget fun m => by simp

theorem yields_putObjectLegalHold (bucket key : Str) (versionId : Option Str) (body : Bytes) :
    Yields (putObjectLegalHold env bucket key versionId body) Response.Plain := by
  simp only [putObjectLegalHold, yields_bind]
  refine yields_ofExcept (Refuses.mapError fun e => by simp) fun status => yields_ofExcept (refuses_legalHoldOf _ _ _) fun on => ?_
  exact yields_loadTarget fun m => yields_op.mpr fun r => by simp

theorem yields_getObjectLegalHold (bucket key : Str) (versionId : Option Str) :
    Yields (getObjectLegalHold bucket key versionId) Response.Plain := by
  simp only [getObjectLegalHold, yields_bind]
  exact yields_loadTarget fun m => plain_ofXml _

theorem request_answers (r : Request) : Yields (r.handler env) Response.Plain := by
  cases r
  case listBuckets => exact yields_listBuckets
  case createBucket => exact yields_createBucket _ _
  case deleteBucket => exact yields_deleteBucket _
  case headBucket => exact yields_headBucket _
  case getBucketLocation => exact yields_getBucketLocation _
  case putBucketVersioning => exact yields_putBucketVersioning _ _
  case getBucketVersioning => exact yields_getBucketVersioning _
  case putBucketLifecycle => exact yields_putBucketLifecycle _ _
  case getBucketLifecycle => exact yields_getBucketLifecycle _
  case deleteBucketLifecycle => exact yields_deleteBucketLifecycle _
  case putBucketCors => exact yields_putBucketCors _ _
  case getBucketCors => exact yields_getBucketCors _
  case deleteBucketCors => exact yields_deleteBucketCors _
  case putBucketObjectLock => exact yields_putBucketObjectLock _ _
  case getBucketObjectLock => exact yields_getBucketObjectLock _
  case listObjects => exact yields_listObjects _ _
  case listObjectVersions => exact yields_listObjectVersions _ _
  case createMultipartUpload => exact yields_createMultipartUpload _ _ _
  case uploadPart => exact yields_uploadPart _ _ _ _ _ _
  case uploadPartCopy => exact yields_uploadPartCopy _ _ _ _ _ _
  case completeMultipartUpload => exact yields_completeMultipartUpload _ _ _ _
  case abortMultipartUpload => exact yields_abortMultipartUpload _ _ _
  case listParts => exact yields_listParts _ _ _
  case putObject => exact yields_putObject _ _ _ _
  case copyObject => exact yields_copyObject _ _ _ _
  case getObject => exact yields_getOrHeadObject _ _ _ _ _
  case headObject => exact yields_getOrHeadObject _ _ _ _ _
  case deleteObject => exact yields_deleteObject _ _ _
  case putObjectTagging => exact yields_putObjectTagging _ _ _ _
  case getObjectTagging => exact yields_getObjectTagging _ _ _
  case deleteObjectTagging => exact yields_deleteObjectTagging _ _ _
  case putObjectRetention => exact yields_putObjectRetention _ _ _ _
  case getObjectRetention => exact yields_getObjectRetention _ _ _
  case putObjectLegalHold => exact yields_putObjectLegalHold _ _ _ _
  case getObjectLegalHold => exact yields_getObjectLegalHold _ _ _

theorem plain_dropBody {resp : Response} (h : resp.Plain) : (dropBody resp).Plain := h

/-- A route runs the request's handler, less the body when it is a HEAD. -/
theorem handler_request (r : Request) :
    (∃ bucket key versionId headers, r = .headObject bucket key versionId headers) ∨
      (Route.request r).handler env = r.handler env := by
  cases r
  case headObject => exact Or.inl ⟨_, _, _, _, rfl⟩
  all_goals exact Or.inr rfl

/-- So does every route but the preflight. -/
theorem route_answers (r : Request) : Yields ((Route.request r).handler env) Response.Plain := by
  rcases handler_request r with ⟨bucket, key, versionId, headers, rfl⟩ | h
  · simp only [Route.handler, yields_bind]
    exact (request_answers (.headObject bucket key versionId headers)).mono fun _ => plain_dropBody
  · rw [h]
    exact request_answers r

/-- Run from any world, the handler ends so. -/
theorem Yields.run {x : Handler α} {Q : α → Prop} (h : Yields x Q) (w : World) : Outcome Q (x.run env w).1 := by
  have hstep : ∀ (g : Unit) (w : World) (o : Op), True → anything.ok g o → anything.res g o (exec env o w).1 ∧ True :=
    fun _ _ _ _ _ => ⟨trivial, trivial⟩
  obtain ⟨_, hr, -⟩ := Prog.Follows.run hstep h (trivial : (fun _ _ => True) () w)
  exact hr

end Handler

end S3lite
