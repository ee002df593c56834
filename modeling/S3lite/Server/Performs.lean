/-
  S3lite.Server.Performs — which operations a request performs at all.

  `Performs C x`: whatever they answer, the operations of the handler are among those of `C`.
  - `reading_performs`: the requests that only read perform operations that leave both
    stores as they are (`exec_reads`), reads of the database and of part files; all but GET and
    HEAD read the database only (`looking_performs`).
  - `configuring_performs`: those about a bucket's configuration change `BUCKETS` besides.
  - `editing_performs`: those about tags and locks edit a manifest in its row besides.
  - `request_performs`, `sweep_performs`: nothing but the completion of an upload replaces
    an upload by an object.
-/
import S3lite.Server.Requests
import S3lite.Server.Rules

namespace S3lite

open Handler

/-! ## Kinds of operations -/

def MetaOp.reads : MetaOp → Bool
  | .getBucket _ | .listBuckets | .getManifest _ | .getPart _ | .listGcPendingParts | .listObjects _ | .getLatestVersion ..
  | .listObjectVersions _ | .listAllManifestsInBucket _ | .listOrphanParts | .listDlq => true
  | _ => false

/-- The operation leaves the database and the files as they are. -/
def Op.reads : Op → Bool
  | .metaOp op => op.reads
  | .readPart _ | .nowUtc => true
  | _ => false

/-- The operation is a read of the database. -/
def Op.looks : Op → Bool
  | .metaOp op => op.reads
  | _ => false

/-- The operation reads the database or the clock. -/
def Op.consults : Op → Bool
  | .nowUtc => true
  | op => op.looks

/-- The operation is about a bucket. -/
def Op.configures : Op → Bool
  | .metaOp (.createBucket ..) | .metaOp (.deleteBucket _) | .metaOp (.updateBucketVersioning ..) | .metaOp (.updateBucketCors ..)
  | .metaOp (.updateBucketObjectLock ..) | .metaOp (.updateBucketLifecycle ..) => true
  | _ => false

/-- The operation edits the tags or the lock of a manifest. -/
def Op.edits : Op → Bool
  | .metaOp (.updateManifestTags ..) | .metaOp (.updateManifestLock ..) => true
  | _ => false

/-- The operation replaces an upload by an object. -/
def Op.completes : Op → Bool
  | .metaOp (.completeMultipartUpload ..) => true
  | _ => false

theorem exec_reads {env : Env} {op : Op} (h : op.reads = true) (w : World) :
    (exec env op w).2.db = w.db ∧ (exec env op w).2.files = w.files ∧ (exec env op w).2.uuids = w.uuids ∧
      w.clock ≤ (exec env op w).2.clock := by
  cases op with
  | metaOp op =>
    have hdb : (exec env (.metaOp op) w).2.db = w.db := by
      cases op <;> first | rfl | cases h
    exact ⟨hdb, rfl, rfl, Nat.le_add_right ..⟩
  | readPart hash => exact ⟨rfl, rfl, rfl, le_rfl⟩
  | nowUtc => exact ⟨rfl, rfl, rfl, Nat.le_add_right ..⟩
  | _ => cases h

theorem completes_of_reads {op : Op} (h : op.reads = true) : op.completes = false := by
  cases op with
  | metaOp op => cases op <;> first | rfl | cases h
  | _ => rfl

/-! ## Handlers -/

def Performs {α : Type} (C : Op → Prop) (x : Handler α) : Prop := Keeps (Prog.Protocol.only C) x () fun _ _ => True

variable {C : Op → Prop} {α β : Type} {env : Env}

theorem Performs.keeps {x : Handler α} (h : Performs C x) {Q : α → Unit → Prop} (hq : ∀ a, Q a ()) :
    Keeps (Prog.Protocol.only C) x () Q := Keeps.mono h fun a _ _ => hq a

theorem performs_op {o : Op} (h : C o) : Performs C (op o) := keeps_op.mpr ⟨h, fun _ _ => trivial⟩

theorem performs_bind {x : Handler α} {f : α → Handler β} (hx : Performs C x) (hf : ∀ a, Performs C (f a)) :
    Performs C (x >>= f) := keeps_bind.mpr (hx.keeps hf)

theorem performs_ok (a : α) : Performs C (ok a) := keeps_ok.mpr trivial

theorem performs_fail (e : S3Error) : Performs C (fail e : Handler α) := keeps_fail

theorem performs_panicked : Performs C (panicked : Handler α) := keeps_panicked

theorem performs_ofExcept (r : Except S3Error α) : Performs C (ofExcept r) := keeps_ofExcept.mpr fun _ _ => trivial

theorem performs_orFail (o : Option α) (e : S3Error) : Performs C (orFail o e) := keeps_orFail.mpr fun _ _ => trivial

theorem performs_mapErr (f : MetaError → S3Error) (r : Except MetaError α) : Performs C (mapErr f r) :=
  keeps_mapErr.mpr fun _ _ => trivial

theorem performs_ensure (p : Prop) [Decidable p] (e : S3Error) : Performs C (ensure p e) := keeps_ensure.mpr fun _ => trivial

theorem performs_etagOf (m : Manifest) : Performs C (etagOf env m) := keeps_etagOf fun _ _ => trivial

theorem Performs.mono {C' : Op → Prop} {x : Handler α} (h : Performs C x) (hc : ∀ o, C o → C' o) : Performs C' x := by
  unfold Performs Keeps at h ⊢
  generalize (fun (r : Except Failure α) (_ : Unit) => ∀ a, r = .ok a → True) = Q at h ⊢
  induction x with
  | ret a => exact h
  | call o k ih => exact ⟨hc o h.1, fun r hr => ih r (h.2 r hr)⟩

/-! ## The helpers -/

theorem performs_existingMatches (existing : Option Manifest) (raw : Str) : Performs C (existingMatches env existing raw) := by
  unfold existingMatches
  split
  · exact performs_ok _
  · exact performs_bind (performs_etagOf _) fun _ => performs_ok _

theorem performs_sliceExclusive (buf : Bytes) (start end_ : Nat) : Performs C (sliceExclusive buf start end_) := by
  unfold sliceExclusive
  split
  · exact performs_ok _
  · exact performs_panicked

/-- Every read of the database is among them. -/
def LooksAmong (C : Op → Prop) : Prop := ∀ o : Op, o.looks = true → C o

/-- Every operation that reads is among them. -/
def ReadsAmong (C : Op → Prop) : Prop := ∀ o : Op, o.reads = true → C o

/-- Every read of the database and of the clock is among them. -/
def ConsultsAmong (C : Op → Prop) : Prop := ∀ o : Op, o.consults = true → C o

theorem ReadsAmong.consults (h : ReadsAmong C) : ConsultsAmong C := by
  intro o ho
  cases o with
  | metaOp o => exact h _ ho
  | nowUtc => exact h _ rfl
  | _ => cases ho

theorem ConsultsAmong.looks (h : ConsultsAmong C) : LooksAmong C := by
  intro o ho
  cases o with
  | metaOp o => exact h _ ho
  | _ => cases ho

theorem ReadsAmong.looks (h : ReadsAmong C) : LooksAmong C := h.consults.looks

section
variable (h : LooksAmong C)
include h

theorem performs_requireBucket (bucket : Str) : Performs C (requireBucket bucket) :=
  performs_bind (performs_op (h _ rfl)) fun _ => performs_orFail _ _

theorem performs_lookupVersion (bucket key : Str) (versionId : Option Str) : Performs C (lookupVersion bucket key versionId) := by
  cases versionId with
  | none => exact performs_op (h _ rfl)
  | some vid => exact performs_op (h _ rfl)

theorem performs_loadTarget (bucket key : Str) (versionId : Option Str) : Performs C (loadTarget bucket key versionId) :=
  performs_bind (performs_lookupVersion h _ _ _) fun _ => performs_orFail _ _

theorem performs_resolveSource (source : CopySource) : Performs C (resolveSource source) :=
  performs_bind (performs_lookupVersion h _ _ _) fun _ => performs_orFail _ _

theorem performs_findVersion (bucket key : Str) (versionId : Option Str) : Performs C (findVersion bucket key versionId) := by
  cases versionId with
  | none => exact performs_bind (performs_op (h _ rfl)) fun _ => performs_orFail _ _
  | some vid => exact performs_bind (performs_op (h _ rfl)) fun _ => performs_orFail _ _

theorem performs_findUpload (bucket key uploadId : Str) : Performs C (findUpload bucket key uploadId) :=
  performs_bind (performs_op (h _ rfl)) fun _ => performs_orFail _ _

theorem performs_checkPutPreconditions (bucket key : Str) (headers : HeaderMap) :
    Performs C (checkPutPreconditions env bucket key headers) := by
  unfold checkPutPreconditions
  dsimp only
  split
  · exact performs_ok _
  · refine performs_bind (performs_op (h _ rfl)) fun found => performs_bind ?_ fun _ => ?_
    · unfold checkIfMatch
      split
      · exact performs_ok _
      · exact performs_bind (performs_existingMatches _ _) fun _ => performs_ensure _ _
    · unfold checkIfNoneMatch
      split
      · exact performs_ok _
      · exact performs_bind (performs_existingMatches _ _) fun _ => performs_ensure _ _

end

theorem performs_readParts {ps : List PartRef} (h : ∀ p ∈ ps, C (.readPart p.hash)) : Performs C (readParts ps) := by
  induction ps with
  | nil => exact performs_ok _
  | cons p ps ih =>
    have ih := ih fun q hq => h q (List.mem_cons_of_mem _ hq)
    exact performs_bind (performs_op (h p (List.mem_cons_self ..))) fun _ => performs_bind (performs_orFail _ _) fun _ =>
      performs_bind ih fun _ => performs_ok _

theorem performs_readBody {m : Manifest} (h : ∀ p ∈ m.parts, C (.readPart p.hash)) (bodyOnlyHeaders : Bool)
    (range : Option (Nat × Nat)) : Performs C (readBody m bodyOnlyHeaders range) := by
  unfold readBody
  split
  · exact performs_ok _
  · refine performs_bind (performs_readParts h) fun buf => ?_
    split
    · unfold sliceInclusive
      split
      · exact performs_ok _
      · exact performs_panicked
    · exact performs_ok _

theorem performs_readRange (first last cursor : Nat) {ps : List PartRef} (h : ∀ p ∈ ps, C (.readPart p.hash)) :
    Performs C (readRange env first last cursor ps) := by
  induction ps generalizing cursor with
  | nil => exact performs_ok _
  | cons p ps ih =>
    have ih := fun cursor => ih cursor fun q hq => h q (List.mem_cons_of_mem _ hq)
    have hend : Performs C (partEnd env cursor p.size) := by
      unfold partEnd
      split
      · exact performs_ok _
      · split
        · exact performs_panicked
        · exact performs_ok _
    refine performs_bind hend fun end_ => ?_
    dsimp only
    split
    · exact ih _
    · exact performs_bind (performs_op (h p (List.mem_cons_self ..))) fun _ => performs_bind (performs_orFail _ _) fun _ =>
        performs_bind (performs_sliceExclusive _ _ _) fun _ => performs_bind (ih _) fun _ => performs_ok _

section
variable (h : ConsultsAmong C)
include h

theorem performs_checkNotLocked (bucket key : Str) (m : Option Manifest) : Performs C (checkNotLocked bucket key m) := by
  unfold checkNotLocked
  split
  · exact performs_ok _
  · exact performs_bind (performs_op (h _ rfl)) fun _ => performs_ensure _ _

theorem performs_lockForPut (cfg : Option ObjectLockConfig) (l : Option ObjectLock) : Performs C (lockForPut cfg l) := by
  unfold lockForPut defaultLockForBucket
  split
  · exact performs_ok _
  · split
    · exact performs_ok _
    · refine performs_bind (performs_op (h _ rfl)) fun now => ?_
      split
      · exact performs_ok _
      · refine performs_bind ?_ fun _ => performs_ok _
        unfold addDays
        dsimp only
        split
        · exact performs_ok _
        · exact performs_panicked

end

theorem performs_bucketUpdated (bucket : Str) (status : Nat) (r : Except MetaError Unit) :
    Performs C (bucketUpdated bucket status r) := by
  unfold bucketUpdated
  split
  · exact performs_ok _
  · exact performs_fail _
  · exact performs_fail _

theorem performs_splitItems (encoding : Option Str) (items : List ListItem) : Performs C (splitItems env encoding items) := by
  induction items with
  | nil => exact performs_ok _
  | cons item items ih =>
    cases item with
    | object m => exact performs_bind (performs_etagOf _) fun _ => performs_bind ih fun _ => performs_ok _
    | commonPrefix p => exact performs_bind ih fun _ => performs_ok _

theorem performs_splitVersions (encoding : Option Str) (entries : List ListObjectVersionEntry) :
    Performs C (splitVersions env encoding entries) := by
  induction entries with
  | nil => exact performs_ok _
  | cons entry entries ih =>
    unfold splitVersions
    dsimp only
    split
    · exact performs_bind (performs_etagOf _) fun _ => performs_bind ih fun _ => performs_ok _
    · exact performs_bind ih fun _ => performs_ok _

/-! ## Requests that read, configure or edit -/

namespace Request

/-- The request only reads the database. -/
def looking : Request → Bool
  | listBuckets | headBucket _ | getBucketLocation _ | getBucketVersioning _ | getBucketLifecycle _ | getBucketCors _
  | getBucketObjectLock _ | listObjects .. | listObjectVersions .. | listParts .. | getObjectTagging .. | getObjectRetention ..
  | getObjectLegalHold .. => true
  | _ => false

/-- The request only reads. -/
def reading : Request → Bool
  | getObject .. | headObject .. => true
  | r => r.looking

/-- The request is about a bucket. -/
def configuring : Request → Bool
  | createBucket .. | deleteBucket _ | putBucketVersioning .. | putBucketLifecycle .. | deleteBucketLifecycle _
  | putBucketCors .. | deleteBucketCors _ | putBucketObjectLock .. => true
  | _ => false

/-- The request sets or deletes the tags or the lock of an object. -/
def editing : Request → Bool
  | putObjectTagging .. | deleteObjectTagging .. | putObjectRetention .. | putObjectLegalHold .. => true
  | _ => false

def completing : Request → Bool
  | completeMultipartUpload .. => true
  | _ => false

end Request

theorem performs_getOrHeadObject (h : LooksAmong C) (hread : ∀ hash, C (.readPart hash)) (bucket key : Str) (versionId : Option Str) (headers : HeaderMap)
    (bodyOnlyHeaders : Bool) : Performs C (getOrHeadObject env bucket key versionId headers bodyOnlyHeaders) := by
  unfold getOrHeadObject
  refine performs_bind (performs_requireBucket h _) fun _ => performs_bind (performs_findVersion h _ _ _) fun m =>
    performs_bind (performs_ensure _ _) fun _ => performs_bind (performs_etagOf _) fun etag => ?_
  split
  · exact performs_ok _
  · exact performs_bind (performs_ofExcept _) fun _ => performs_bind (performs_readBody (fun _ _ => hread _) _ _) fun _ => performs_ok _

theorem looking_performs (h : LooksAmong C) {r : Request} (hr : r.looking = true) : Performs C (r.handler env) := by
  cases r with
  | listBuckets => exact performs_bind (performs_op (h _ rfl)) fun _ => performs_ok _
  | headBucket bucket => exact performs_bind (performs_requireBucket h _) fun _ => performs_ok _
  | getBucketLocation bucket => exact performs_bind (performs_requireBucket h _) fun _ => performs_ok _
  | getBucketVersioning bucket => exact performs_bind (performs_requireBucket h _) fun _ => performs_ok _
  | getBucketObjectLock bucket => exact performs_bind (performs_requireBucket h _) fun _ => performs_ok _
  | getBucketLifecycle bucket =>
    exact performs_bind (performs_requireBucket h _) fun _ => performs_bind (performs_ensure _ _) fun _ => performs_ok _
  | getBucketCors bucket =>
    exact performs_bind (performs_requireBucket h _) fun _ => performs_bind (performs_ensure _ _) fun _ => performs_ok _
  | listObjects bucket query =>
    simp only [Request.handler, listObjects]
    refine performs_bind (performs_requireBucket h _) fun _ => ?_
    split
    · exact performs_bind (performs_ofExcept _) fun _ => performs_bind (performs_ofExcept _) fun _ =>
        performs_bind (performs_ofExcept _) fun _ => performs_bind (performs_op (h _ rfl)) fun _ =>
          performs_bind (performs_splitItems _ _) fun _ => performs_ok _
    · exact performs_bind (performs_ofExcept _) fun _ => performs_bind (performs_ofExcept _) fun _ =>
        performs_bind (performs_op (h _ rfl)) fun _ => performs_bind (performs_splitItems _ _) fun _ => performs_ok _
  | listObjectVersions bucket query =>
    exact performs_bind (performs_requireBucket h _) fun _ => performs_bind (performs_ofExcept _) fun _ =>
      performs_bind (performs_op (h _ rfl)) fun _ => performs_bind (performs_splitVersions _ _) fun _ => performs_ok _
  | listParts bucket key uploadId => exact performs_bind (performs_findUpload h _ _ _) fun _ => performs_ok _
  | getObjectTagging bucket key versionId => exact performs_bind (performs_loadTarget h _ _ _) fun _ => performs_ok _
  | getObjectRetention bucket key versionId =>
    exact performs_bind (performs_loadTarget h _ _ _) fun _ => performs_bind (performs_orFail _ _) fun _ => performs_ok _
  | getObjectLegalHold bucket key versionId => exact performs_bind (performs_loadTarget h _ _ _) fun _ => performs_ok _
  | _ => cases hr

theorem reading_performs (h : LooksAmong C) (hread : ∀ hash, C (.readPart hash)) {r : Request} (hr : r.reading = true) :
    Performs C (r.handler env) := by
  cases r with
  | getObject bucket key versionId headers => exact performs_getOrHeadObject h hread ..
  | headObject bucket key versionId headers => exact performs_getOrHeadObject h hread ..
  | _ => exact looking_performs h hr

theorem configuring_performs (h : ConsultsAmong C) (hc : ∀ o : Op, o.configures = true → C o) {r : Request} (hr : r.configuring = true) :
    Performs C (r.handler env) := by
  cases r with
  | createBucket bucket headers =>
    refine performs_bind (performs_op (h _ rfl)) fun _ => performs_bind (performs_op (hc _ rfl)) fun r => ?_
    split
    · exact performs_ok _
    · exact performs_fail _
    · exact performs_fail _
  | deleteBucket bucket =>
    refine performs_bind (performs_op (hc _ rfl)) fun r => ?_
    split
    · exact performs_ok _
    · exact performs_fail _
    · exact performs_fail _
    · exact performs_fail _
  | putBucketVersioning bucket body =>
    exact performs_bind (performs_ofExcept _) fun _ => performs_bind (performs_ofExcept _) fun _ =>
      performs_bind (performs_op (hc _ rfl)) fun _ => performs_bucketUpdated _ _ _
  | putBucketLifecycle bucket body =>
    exact performs_bind (performs_ofExcept _) fun _ => performs_bind (performs_op (hc _ rfl)) fun _ => performs_bucketUpdated _ _ _
  | putBucketCors bucket body =>
    exact performs_bind (performs_ofExcept _) fun _ => performs_bind (performs_op (hc _ rfl)) fun _ => performs_bucketUpdated _ _ _
  | deleteBucketLifecycle bucket => exact performs_bind (performs_op (hc _ rfl)) fun _ => performs_bucketUpdated _ _ _
  | deleteBucketCors bucket => exact performs_bind (performs_op (hc _ rfl)) fun _ => performs_bucketUpdated _ _ _
  | putBucketObjectLock bucket body =>
    exact performs_bind (performs_ofExcept _) fun _ => performs_bind (performs_requireBucket h.looks _) fun _ =>
      performs_bind (performs_ensure _ _) fun _ => performs_bind (performs_ofExcept _) fun _ =>
        performs_bind (performs_op (hc _ rfl)) fun _ => performs_bind (performs_mapErr _ _) fun _ => performs_ok _
  | _ => cases hr

theorem editing_performs (h : LooksAmong C) (he : ∀ o : Op, o.edits = true → C o) {r : Request} (hr : r.editing = true) :
    Performs C (r.handler env) := by
  cases r with
  | putObjectTagging bucket key versionId body =>
    exact performs_bind (performs_loadTarget h _ _ _) fun _ => performs_bind (performs_ofExcept _) fun _ =>
      performs_bind (performs_op (he _ rfl)) fun _ => performs_bind (performs_mapErr _ _) fun _ => performs_ok _
  | deleteObjectTagging bucket key versionId =>
    exact performs_bind (performs_loadTarget h _ _ _) fun _ => performs_bind (performs_op (he _ rfl)) fun _ =>
      performs_bind (performs_mapErr _ _) fun _ => performs_ok _
  | putObjectRetention bucket key versionId body =>
    exact performs_bind (performs_ofExcept _) fun _ => performs_bind (performs_ofExcept _) fun _ =>
      performs_bind (performs_orFail _ _) fun _ => performs_bind (performs_loadTarget h _ _ _) fun _ =>
        performs_bind (performs_ensure _ _) fun _ => performs_bind (performs_op (he _ rfl)) fun _ =>
          performs_bind (performs_mapErr _ _) fun _ => performs_ok _
  | putObjectLegalHold bucket key versionId body =>
    exact performs_bind (performs_ofExcept _) fun _ => performs_bind (performs_ofExcept _) fun _ =>
      performs_bind (performs_loadTarget h _ _ _) fun _ => performs_bind (performs_op (he _ rfl)) fun _ =>
        performs_bind (performs_mapErr _ _) fun _ => performs_ok _
  | _ => cases hr

/-! ## Requests that store and delete -/

namespace Request

/-- The request stores a manifest or a part. -/
def storing : Request → Bool
  | createMultipartUpload .. | uploadPart .. | uploadPartCopy .. | putObject .. | copyObject .. => true
  | _ => false

/-- The request reads part files. -/
def opening : Request → Bool
  | getObject .. | headObject .. | uploadPartCopy .. => true
  | _ => false

/-- The request removes a manifest. -/
def removing : Request → Bool
  | deleteObject .. | abortMultipartUpload .. => true
  | _ => false

end Request

/-- What it takes to store a manifest, and to collect what that frees, is among them. -/
structure PutsAmong (C : Op → Prop) : Prop where
  consults : ConsultsAmong C
  draw : C .newUuid
  put : ∀ m, C (.metaOp (.putManifest m))
  mark : ∀ hash, C (.metaOp (.markPartGcPending hash))
  unlink : ∀ hash, C (.deletePart hash)
  remove : ∀ hash, C (.metaOp (.removePart hash))

/-- And what it takes to write parts. -/
structure StoresAmong (C : Op → Prop) : Prop extends PutsAmong C where
  write : ∀ data, C (.writeBytes data)
  append : ∀ key part, C (.metaOp (.appendPart key part))

section
variable (h : PutsAmong C)
include h

theorem performs_gcFreedParts (freed : List Hash) : Performs C (gcFreedParts freed) :=
  AllowsGc.gcFreedParts ⟨fun _ => h.mark, fun _ => h.unlink, fun _ => h.remove⟩ fun _ => trivial

theorem performs_nextVersionId (v : VersioningState) : Performs C (nextVersionId v) := by
  cases v with
  | enabled => exact performs_op h.draw
  | off => exact performs_ok _
  | suspended => exact performs_ok _

/-- What a request stores is counted, and what that freed collected. -/
theorem performs_countAndCollect {o : Op} (ho : C o) (mapError : MetaError → S3Error) (freed : o.Res → Except MetaError DeletionEffect)
    {f : Handler β} (hf : Performs C f) :
    Performs C (do
      let r ← op o
      let effect ← mapErr mapError (freed r)
      gcFreedParts effect.freedParts
      f) :=
  performs_bind (performs_op ho) fun _ => performs_bind (performs_mapErr _ _) fun _ => performs_bind (performs_gcFreedParts h _) fun _ => hf

theorem performs_putAndCollect (m : Manifest) {f : Handler β} (hf : Performs C f) :
    Performs C (do
      let r ← op (.metaOp (.putManifest m))
      let effect ← mapErr mapMetaErr r
      gcFreedParts effect.freedParts
      f) := performs_countAndCollect h (h.put m) _ (fun r => r) hf

theorem performs_insertDeleteMarker (bucket key : Str) (v : VersioningState) : Performs C (insertDeleteMarker bucket key v) :=
  performs_bind (performs_nextVersionId h _) fun _ => performs_bind (performs_op (h.consults _ rfl)) fun _ =>
    performs_putAndCollect h _ (performs_ok _)

theorem performs_putObject (bucket key : Str) (headers : HeaderMap) {body : Bytes} (hwrite : C (.writeBytes body)) :
    Performs C (putObject env bucket key headers body) := by
  have hreads := h.consults
  exact performs_bind (performs_requireBucket hreads.looks _) fun _ => performs_bind (performs_checkPutPreconditions hreads.looks _ _ _) fun _ =>
    performs_bind (performs_ofExcept _) fun _ => performs_bind (performs_ensure _ _) fun _ => performs_bind (performs_ofExcept _) fun _ =>
      performs_bind (performs_ofExcept _) fun _ => performs_bind (performs_op hwrite) fun _ =>
        performs_bind (performs_nextVersionId h _) fun _ => performs_bind (performs_ofExcept _) fun _ =>
          performs_bind (performs_ofExcept _) fun _ => performs_bind (performs_lockForPut hreads _ _) fun _ =>
            performs_bind (performs_op (hreads _ rfl)) fun _ => performs_bind (performs_etagOf _) fun _ =>
              performs_putAndCollect h _ (performs_ok _)

theorem performs_copyObject (bucket key : Str) (source : CopySource) (headers : HeaderMap) :
    Performs C (copyObject env bucket key source headers) := by
  have hreads := h.consults
  exact performs_bind (performs_op (hreads _ rfl)) fun _ => performs_bind (performs_orFail _ _) fun _ =>
    performs_bind (performs_resolveSource hreads.looks _) fun _ => performs_bind (performs_nextVersionId h _) fun _ =>
      performs_bind (performs_op (hreads _ rfl)) fun _ => performs_bind (performs_etagOf _) fun _ =>
        performs_putAndCollect h _ (performs_ok _)

theorem performs_removeManifest {key : ManifestKey} (hdelete : C (.metaOp (.deleteManifest key))) :
    Performs C (removeManifest key) :=
  AllowsGc.removeManifest ⟨fun _ => h.mark, fun _ => h.unlink, fun _ => h.remove⟩ hdelete fun _ _ => trivial

theorem removing_performs (hdelete : ∀ key, C (.metaOp (.deleteManifest key))) {r : Request} (hr : r.removing = true) :
    Performs C (r.handler env) := by
  have hreads := h.consults
  cases r with
  | abortMultipartUpload bucket key uploadId =>
    exact performs_bind (performs_findUpload hreads.looks _ _ _) fun _ => performs_countAndCollect h (hdelete _) _ (fun r => r) (performs_ok _)
  | deleteObject bucket key versionId =>
    refine performs_bind (performs_requireBucket hreads.looks _) fun cfg => ?_
    split
    · exact performs_bind (performs_op (hreads _ rfl)) fun _ => performs_bind (performs_checkNotLocked hreads _ _ _) fun _ =>
        performs_bind (performs_removeManifest h (hdelete _)) fun _ => performs_ok _
    · split
      · exact performs_bind (performs_op (hreads _ rfl)) fun _ => performs_bind (performs_checkNotLocked hreads _ _ _) fun _ =>
          performs_bind (performs_removeManifest h (hdelete _)) fun _ => performs_ok _
      · exact performs_insertDeleteMarker h _ _ _
      · exact performs_insertDeleteMarker h _ _ _
  | _ => cases hr

theorem completing_performs (hcomplete : ∀ key m, C (.metaOp (.completeMultipartUpload key m))) {r : Request}
    (hr : r.completing = true) : Performs C (r.handler env) := by
  have hreads := h.consults
  cases r with
  | completeMultipartUpload bucket key uploadId body =>
    refine performs_bind (performs_ofExcept _) fun _ => performs_bind (performs_ensure _ _) fun _ =>
      performs_bind (performs_ensure _ _) fun _ => performs_bind (performs_findUpload hreads.looks _ _ _) fun _ =>
        performs_bind (performs_ofExcept _) fun _ => performs_bind ?_ fun _ => performs_bind (performs_op (hreads _ rfl)) fun _ =>
          performs_bind (performs_etagOf _) fun _ => performs_countAndCollect h (hcomplete _ _) _ (fun r => r) (performs_ok _)
    unfold checkSizeSum
    split
    · exact performs_panicked
    · exact performs_ok _
  | _ => cases hr

end

theorem storing_performs (h : StoresAmong C) {r : Request} (hr : r.storing = true) (hread : r.opening = true → ∀ hash, C (.readPart hash)) :
    Performs C (r.handler env) := by
  have hputs := h.toPutsAmong
  have hreads := h.consults
  cases r with
  | createMultipartUpload bucket key headers =>
    exact performs_bind (performs_requireBucket hreads.looks _) fun _ => performs_bind (performs_op h.draw) fun _ =>
      performs_bind (performs_op (hreads _ rfl)) fun _ => performs_putAndCollect hputs _ (performs_ok _)
  | uploadPart bucket key uploadId partNumber headers body =>
    exact performs_bind (performs_ensure _ _) fun _ => performs_bind (performs_ofExcept _) fun _ =>
      performs_bind (performs_ensure _ _) fun _ => performs_bind (performs_op (h.write _)) fun _ =>
        performs_countAndCollect hputs (h.append _ _) _ (fun r => r) (performs_ok _)
  | uploadPartCopy bucket key uploadId partNumber source headers =>
    exact performs_bind (performs_ensure _ _) fun _ => performs_bind (performs_resolveSource hreads.looks _) fun _ =>
      performs_bind (performs_ofExcept _) fun _ => performs_bind (performs_readRange _ _ _ fun p _ => hread rfl p.hash) fun _ =>
        performs_bind (performs_op (h.write _)) fun _ => performs_countAndCollect hputs (h.append _ _) _ (fun r => r)
          (performs_bind (performs_op (hreads _ rfl)) fun _ => performs_ok _)
  | putObject bucket key headers body => exact performs_putObject hputs _ _ _ (h.write _)
  | copyObject bucket key source headers => exact performs_copyObject hputs _ _ _ _
  | _ => cases hr

/-! ## Everything but the completion of an upload -/

def Uncompleted (o : Op) : Prop := o.completes = false

theorem reads_uncompleted : ReadsAmong Uncompleted := fun _ h => completes_of_reads h

theorem stores_uncompleted : StoresAmong Uncompleted :=
  ⟨⟨reads_uncompleted.consults, rfl, fun _ => rfl, fun _ => rfl, fun _ => rfl, fun _ => rfl⟩, fun _ => rfl, fun _ _ => rfl⟩

theorem request_performs {r : Request} (hr : r.completing = false) : Performs Uncompleted (r.handler env) := by
  have h := stores_uncompleted
  by_cases hreading : r.reading = true
  · exact reading_performs reads_uncompleted.looks (fun _ => reads_uncompleted _ rfl) hreading
  by_cases hconfiguring : r.configuring = true
  · refine configuring_performs h.consults (fun o ho => ?_) hconfiguring
    cases o with
    | metaOp o => cases o <;> first | rfl | cases ho
    | _ => rfl
  by_cases hediting : r.editing = true
  · refine editing_performs h.consults.looks (fun o ho => ?_) hediting
    cases o with
    | metaOp o => cases o <;> first | rfl | cases ho
    | _ => rfl
  by_cases hstoring : r.storing = true
  · exact storing_performs h hstoring fun _ _ => rfl
  refine removing_performs h.toPutsAmong (fun _ => rfl) ?_
  cases r <;> first | rfl | exact absurd rfl hreading | exact absurd rfl hconfiguring | exact absurd rfl hediting |
    exact absurd rfl hstoring | cases hr

/-! ## The sweeper -/

/-- What a sweep of these buckets performs is among them. -/
structure SweepsAmong (C : Op → Prop) (names : List Str) : Prop where
  looks : LooksAmong C
  draw : C .newUuid
  delete : ∀ key, C (.metaOp (.deleteManifest key))
  mark : ∀ bucket ∈ names, ∀ key vid now, C (.metaOp (.putManifest (tombstone ⟨bucket, key, vid⟩ now)))

section
variable {names : List Str} (h : SweepsAmong C names)
include h

theorem performs_expireCurrent {bucket : Str} (hb : bucket ∈ names) (v : VersioningState) (m : Manifest) (now : Time) :
    Performs C (expireCurrent bucket v m now) := by
  have hmark : ∀ v, Performs C (nextVersionId v) → Performs C (do
      let newVersion ← nextVersionId v
      let r ← op (.metaOp (.putManifest (tombstone ⟨bucket, m.key.key, newVersion⟩ now)))
      let _ ← mapErr mapMetaErr r
      ok ()) := fun v hv =>
    performs_bind hv fun _ => performs_bind (performs_op (h.mark bucket hb _ _ _)) fun _ =>
      performs_bind (performs_mapErr _ _) fun _ => performs_ok _
  cases v with
  | off => exact performs_bind (performs_op (h.delete _)) fun _ => performs_bind (performs_mapErr _ _) fun _ => performs_ok _
  | enabled => exact hmark .enabled (performs_op h.draw)
  | suspended => exact hmark .suspended (performs_ok _)

theorem performs_evaluateAll {bucket : Str} (hb : bucket ∈ names) (v : VersioningState) (current : Option Str)
    (rules : List LifecycleRule) (now : Time) (report : SweepReport) (ms : List Manifest) :
    Performs C (evaluateAll bucket v current rules now report ms) := by
  induction ms generalizing report with
  | nil => exact performs_ok _
  | cons m ms ih =>
    refine performs_bind ?_ fun _ => ih _
    have hdelete : ∀ report' : SweepReport, Performs C (do
        let r ← op (.metaOp (.deleteManifest m.key))
        let _ ← mapErr mapMetaErr r
        ok report') := fun report' =>
      performs_bind (performs_op (h.delete _)) fun _ => performs_bind (performs_mapErr _ _) fun _ => performs_ok _
    unfold evaluateManifest
    split
    · exact performs_ok _
    · exact hdelete _
    · exact performs_bind (performs_expireCurrent h hb _ _ _) fun _ => performs_ok _
    · exact hdelete _

theorem performs_sweepKeys {bucket : Str} (hb : bucket ∈ names) (v : VersioningState) (rules : List LifecycleRule) (now : Time)
    (report : SweepReport) (byKey : List (Str × List Manifest)) : Performs C (sweepKeys bucket v rules now report byKey) := by
  induction byKey generalizing report with
  | nil => exact performs_ok _
  | cons r byKey ih => exact performs_bind (performs_evaluateAll h hb _ _ _ _ _ _) fun _ => ih _

theorem performs_sweepBuckets (now : Time) (report : SweepReport) {buckets : List (Str × BucketConfig)}
    (hb : ∀ b ∈ buckets, b.1 ∈ names) : Performs C (sweepBuckets now report buckets) := by
  induction buckets generalizing report with
  | nil => exact performs_ok _
  | cons b buckets ih =>
    have ih := fun report => ih report fun x hx => hb x (List.mem_cons_of_mem _ hx)
    have hb := hb b (List.mem_cons_self ..)
    unfold sweepBuckets
    dsimp only
    split
    · exact ih _
    · exact performs_bind (performs_op (h.looks _ rfl)) fun _ => performs_bind (performs_sweepKeys h hb _ _ _ _ _) fun _ => ih _

end

theorem performs_sweepParts (hmark : ∀ hash, C (.metaOp (.markPartGcPending hash))) (hdelete : ∀ hash, C (.deletePart hash))
    (hremove : ∀ hash, C (.metaOp (.removePart hash))) (orphans : List Hash) : Performs C (sweepParts orphans) := by
  induction orphans with
  | nil => exact performs_ok _
  | cons hash orphans ih =>
    refine performs_bind ?_ fun _ => performs_bind ih fun _ => performs_ok _
    exact AllowsGc.collectPart ⟨fun _ => hmark, fun _ => hdelete, fun _ => hremove⟩ fun _ _ => trivial

theorem performs_sweepOnce (hsweep : ∀ names, SweepsAmong C names) (hclock : C .nowUtc)
    (hmark : ∀ hash, C (.metaOp (.markPartGcPending hash))) (hdelete : ∀ hash, C (.deletePart hash))
    (hremove : ∀ hash, C (.metaOp (.removePart hash))) : Performs C sweepOnce := by
  have hlooks := (hsweep []).looks
  refine performs_bind (performs_op hclock) fun now => performs_bind (performs_bind (performs_op (hlooks _ rfl)) fun buckets => ?_) fun _ =>
    performs_bind (performs_bind (performs_op (hlooks _ rfl)) fun _ => ?_) fun _ => performs_ok _
  · exact performs_sweepBuckets (hsweep _) _ _ fun b hb => List.mem_map_of_mem (f := Prod.fst) hb
  · exact performs_sweepParts hmark hdelete hremove _

theorem sweep_performs : Performs Uncompleted sweepOnce :=
  performs_sweepOnce (fun _ => ⟨reads_uncompleted.looks, rfl, fun _ => rfl, fun _ _ _ _ _ => rfl⟩) rfl (fun _ => rfl) (fun _ => rfl)
    fun _ => rfl

end S3lite
