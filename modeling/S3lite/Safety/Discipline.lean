/-
  S3lite.Safety.Discipline — what the requests and the sweeper do to the two stores, stated
  once (`discipline`) and checked handler by handler (`request_keeps`, `sweep_keeps`).

  A request writes a row only under "null" or an id it drew and has not used (`Writes`),
  and what it writes is a delete marker, an empty upload, an object of one part it hashed,
  or a copy of a committed object it read (`Stores`). It completes an upload with parts of
  the manifest it read (`Completes`), unlinks and removes only a part it was granted, and
  asks for one grant at a time.
-/
import S3lite.Server.Requests
import S3lite.Server.Rules

namespace S3lite

open Handler

/-! ## The ghost state of a request -/

structure Ghost where
  /-- The hash granted for collection and not yet removed. -/
  granted : Option Hash
  /-- The uuid drawn and not yet stored. -/
  drawn : Option Str
  /-- The manifests read. -/
  seen : List Manifest
  /-- The last row looked up by its key, until an upload is completed with it. -/
  reading : Option (ManifestKey × Manifest)

def Ghost.start : Ghost := ⟨none, none, [], none⟩

namespace Ghost

def nextMeta (g : Ghost) : (op : MetaOp) → op.Res → Ghost
  | .putManifest _, _ => { g with drawn := none }
  | .getManifest key, r => { g with seen := r.toList ++ g.seen, reading := r.map fun m => (key, m) }
  | .getLatestVersion _ _, r => { g with seen := r.toList ++ g.seen }
  | .markPartGcPending h, .ok true => { g with granted := some h }
  | .removePart _, _ => { g with granted := none }
  | .completeMultipartUpload _ _, _ => { g with reading := none }
  | _, _ => g

def next (g : Ghost) : (op : Op) → op.Res → Ghost
  | .newUuid, r => { g with drawn := some r }
  | .metaOp op, r => g.nextMeta op r
  | _, _ => g

end Ghost

/-! ## The protocol -/

/-- What a manifest a request stores holds. -/
inductive Stores (env : Env) (g : Ghost) : Manifest → Prop
  | tombstone (key : ManifestKey) (now : Time) : Stores env g (S3lite.tombstone key now)
  | upload (key : ManifestKey) (headers : HeaderMap) (now : Time) : g.drawn = some key.versionId →
      Stores env g (uploadManifest key headers now)
  | single (key : ManifestKey) (data : Bytes) (headers : HeaderMap) (tags : Table Str Str)
      (checksum : Option AdditionalChecksum) (lock : Option ObjectLock) (now : Time) :
      (∀ ac ∈ checksum, Checksum.compute env ac.algorithm data = ac.value) →
      Stores env g (singlePutManifest key (writeResult env data) headers tags checksum lock now)
  | copy (src : Manifest) (key : ManifestKey) (headers : HeaderMap) (now : Time) : src ∈ g.seen →
      src.state = .committed → src.kind = .object → Stores env g (copyManifest src key headers now)

structure Writes (env : Env) (g : Ghost) (m : Manifest) : Prop where
  clear : m.key.NulFree
  version : m.key.versionId = nullVersionId ∨ g.drawn = some m.key.versionId
  stores : Stores env g m

/-- The upload is completed with parts of the manifest read. -/
structure Completes (g : Ghost) (k : ManifestKey) (m : Manifest) : Prop where
  bucket : NulFree k.bucket
  key : NulFree k.key
  upload : ∃ up selected now, g.reading = some (k, up) ∧ up.state = .inProgress ∧ (∀ p ∈ selected, p ∈ up.parts) ∧
    m = completedManifest k.bucket k.key up selected now

/-- A part is the hashed bytes of the request. -/
def Uploads (env : Env) (part : PartRef) : Prop :=
  0 < part.partNumber ∧ part.partNumber ≤ 10000 ∧ ∃ data, part = partRef part.partNumber (writeResult env data)

/-- What a request may do. -/
def Ghost.Allows (env : Env) (g : Ghost) : Op → Prop
  | .metaOp (.putManifest m) => Writes env g m
  | .metaOp (.appendPart _ part) => Uploads env part
  | .metaOp (.completeMultipartUpload key m) => Completes g key m
  | .metaOp (.updateManifestState ..) => False
  | .metaOp (.markPartGcPending _) => g.granted = none
  | .metaOp (.removePart h) => g.granted = some h
  | .deletePart h => g.granted = some h
  | _ => True

/-- What a request may assume of a result. -/
def Op.Sound (env : Env) : (op : Op) → op.Res → Prop
  | .writeBytes data, r => r = writeResult env data
  | .newUuid, r => NulFree r
  | .metaOp (.listAllManifestsInBucket bucket), r => ∀ m ∈ (r : List Manifest), m.key.bucket = bucket ∧ m.key.NulFree
  | _, _ => True

def discipline (env : Env) : Prog.Protocol Op Op.Res Ghost where
  ok := fun g op => g.Allows env op
  res := fun _ op r => op.Sound env r
  next := fun g op r => g.next op r

section
variable {env : Env} {g : Ghost}

@[simp] theorem discipline_ok (op : Op) : (discipline env).ok g op = g.Allows env op := rfl

@[simp] theorem discipline_res (op : Op) (r : op.Res) : (discipline env).res g op r = op.Sound env r := rfl

@[simp] theorem discipline_next (op : Op) (r : op.Res) : (discipline env).next g op r = g.next op r := rfl

/-! ## The helpers -/

theorem keeps_collectPart {hash : Hash} {Q : Bool → Ghost → Prop} (hg : g.granted = none) (hq : ∀ b, Q b g) :
    Keeps (discipline env) (collectPart hash) g Q := by
  unfold collectPart
  simp only [keeps_bind, keeps_op, discipline_ok, discipline_res, discipline_next]
  refine ⟨hg, fun r _ => ?_⟩
  cases r with
  | error _ => exact keeps_pure.mpr (hq false)
  | ok granted =>
    cases granted with
    | false => exact keeps_pure.mpr (hq false)
    | true =>
      simp only [keeps_bind, keeps_op, keeps_pure, discipline_ok, discipline_res, discipline_next]
      refine ⟨rfl, fun _ _ => ⟨rfl, fun _ _ => ?_⟩⟩
      have e : ({ { g with granted := some hash } with granted := none } : Ghost) = g := by
        cases g; cases hg; rfl
      exact (congrArg (Q true) e).mpr (hq true)

theorem keeps_gcFreedParts {freed : List Hash} {Q : Unit → Ghost → Prop} (hg : g.granted = none) (hq : Q () g) :
    Keeps (discipline env) (gcFreedParts freed) g Q := by
  induction freed with
  | nil => exact keeps_ok.mpr hq
  | cons hash freed ih =>
    simp only [gcFreedParts, keeps_bind]
    exact keeps_collectPart hg fun _ => ih

theorem keeps_requireBucket {bucket : Str} {Q : BucketConfig → Ghost → Prop} (hq : ∀ cfg, Q cfg g) :
    Keeps (discipline env) (requireBucket bucket) g Q := by
  simp only [requireBucket, keeps_bind, keeps_op, keeps_orFail]
  exact ⟨trivial, fun _ _ cfg _ => hq cfg⟩

/-- A version id is "null" or drawn. -/
theorem keeps_nextVersionId {versioning : VersioningState} {Q : Str → Ghost → Prop}
    (hq : ∀ vid d, NulFree vid → vid = nullVersionId ∨ d = some vid → Q vid { g with drawn := d }) :
    Keeps (discipline env) (nextVersionId versioning) g Q := by
  have hnull : NulFree nullVersionId := by decide
  cases versioning with
  | enabled =>
    simp only [nextVersionId, keeps_op]
    exact ⟨trivial, fun r hr => hq r (some r) hr (Or.inr rfl)⟩
  | off => exact keeps_ok.mpr (hq _ _ hnull (Or.inl rfl))
  | suspended => exact keeps_ok.mpr (hq _ _ hnull (Or.inl rfl))

/-- What the request goes on with was seen. -/
theorem keeps_lookupVersion {bucket key : Str} {versionId : Option Str} {Q : Option Manifest → Ghost → Prop}
    (hq : ∀ found g', g'.granted = g.granted → (∀ m, found = some m → m ∈ g'.seen) → Q found g') :
    Keeps (discipline env) (lookupVersion bucket key versionId) g Q := by
  cases versionId <;> simp only [lookupVersion, keeps_op] <;>
    exact ⟨trivial, fun r _ => hq r _ rfl fun m hm => List.mem_append_left _ (by simpa using hm)⟩

theorem keeps_loadTarget {bucket key : Str} {versionId : Option Str} {Q : Manifest → Ghost → Prop}
    (hq : ∀ m g', g'.granted = g.granted → Q m g') : Keeps (discipline env) (loadTarget bucket key versionId) g Q := by
  unfold loadTarget
  rw [keeps_bind]
  refine keeps_lookupVersion fun found g' hg _ => ?_
  exact keeps_orFail.mpr fun m _ => hq m g' hg

theorem keeps_resolveSource {source : CopySource} {Q : Manifest → Ghost → Prop}
    (hq : ∀ m g', g'.granted = g.granted → m ∈ g'.seen → m.state = .committed → m.kind = .object → Q m g') :
    Keeps (discipline env) (resolveSource source) g Q := by
  unfold resolveSource
  rw [keeps_bind]
  refine keeps_lookupVersion fun found g' hg hseen => ?_
  refine keeps_orFail.mpr fun m hm => ?_
  obtain ⟨hm, hp⟩ := Option.filter_eq_some_iff.mp hm
  simp only [decide_eq_true_eq] at hp
  exact hq m g' hg (hseen m hm) hp.1 hp.2

theorem keeps_findVersion {bucket key : Str} {versionId : Option Str} {Q : Manifest → Ghost → Prop}
    (hq : ∀ m g', Q m g') : Keeps (discipline env) (findVersion bucket key versionId) g Q := by
  unfold findVersion
  cases versionId <;> simp only [keeps_bind, keeps_op, keeps_orFail] <;>
    exact ⟨trivial, fun _ _ m _ => hq m _⟩

/-- The upload read is the one to complete. -/
theorem keeps_findUpload {bucket key uploadId : Str} {Q : Manifest → Ghost → Prop}
    (hq : ∀ m g', g'.granted = g.granted → g'.reading = some (⟨bucket, key, uploadId⟩, m) → m.state = .inProgress →
      Q m g') :
    Keeps (discipline env) (findUpload bucket key uploadId) g Q := by
  unfold findUpload
  simp only [keeps_bind, keeps_op, keeps_orFail]
  refine ⟨trivial, fun r _ m hm => ?_⟩
  obtain ⟨hm, hp⟩ := Option.filter_eq_some_iff.mp hm
  have hr : r = some m := hm
  subst hr
  exact hq m _ rfl rfl (of_decide_eq_true hp)

theorem keeps_readParts {ps : List PartRef} {Q : Bytes → Ghost → Prop} (hq : ∀ b, Q b g) :
    Keeps (discipline env) (readParts ps) g Q := by
  induction ps generalizing Q with
  | nil => exact keeps_ok.mpr (hq _)
  | cons p ps ih =>
    simp only [readParts, keeps_bind, keeps_op, keeps_orFail]
    exact ⟨trivial, fun _ _ data _ => ih fun rest => keeps_ok.mpr (hq _)⟩

theorem keeps_slice {buf : Bytes} {start end_ : Nat} {Q : Bytes → Ghost → Prop} (hq : ∀ b, Q b g) :
    Keeps (discipline env) (sliceExclusive buf start end_) g Q := by
  unfold sliceExclusive
  split
  · exact keeps_ok.mpr (hq _)
  · exact keeps_panicked

theorem keeps_readRange {first last cursor : Nat} {ps : List PartRef} {Q : Bytes → Ghost → Prop} (hq : ∀ b, Q b g) :
    Keeps (discipline env) (readRange env first last cursor ps) g Q := by
  induction ps generalizing cursor Q with
  | nil => exact keeps_ok.mpr (hq _)
  | cons p ps ih =>
    simp only [readRange, keeps_bind]
    have hend : ∀ {R : Nat → Ghost → Prop}, (∀ n, R n g) → Keeps (discipline env) (partEnd env cursor p.size) g R := by
      intro R hR
      unfold partEnd
      split
      · exact keeps_ok.mpr (hR _)
      · split
        · exact keeps_panicked
        · exact keeps_ok.mpr (hR _)
    refine hend fun end_ => ?_
    split
    · exact ih hq
    · simp only [keeps_bind, keeps_op, keeps_orFail]
      refine ⟨trivial, fun _ _ buf _ => keeps_slice fun chunk => ih fun rest => keeps_ok.mpr (hq _)⟩

theorem keeps_removeManifest {key : ManifestKey} {Q : Bool → Ghost → Prop} (hg : g.granted = none) (hq : ∀ b, Q b g) :
    Keeps (discipline env) (removeManifest key) g Q := by
  unfold removeManifest
  simp only [keeps_bind, keeps_op]
  refine ⟨trivial, fun r _ => ?_⟩
  split
  · exact keeps_bind.mpr (keeps_gcFreedParts hg (keeps_ok.mpr (hq _)))
  · exact keeps_ok.mpr (hq _)
  · exact keeps_fail

theorem keeps_checkNotLocked {bucket key : Str} {m : Option Manifest} {Q : Unit → Ghost → Prop} (hq : Q () g) :
    Keeps (discipline env) (checkNotLocked bucket key m) g Q := by
  unfold checkNotLocked
  split
  · exact keeps_ok.mpr hq
  · simp only [keeps_bind, keeps_op, keeps_ensure]
    exact ⟨trivial, fun _ _ _ => hq⟩

theorem keeps_existingMatches {existing : Option Manifest} {raw : Str} {Q : Bool → Ghost → Prop} (hq : ∀ b, Q b g) :
    Keeps (discipline env) (existingMatches env existing raw) g Q := by
  unfold existingMatches
  split
  · exact keeps_ok.mpr (hq _)
  · exact keeps_bind.mpr (keeps_etagOf fun _ _ => keeps_ok.mpr (hq _))

theorem keeps_checkIfMatch {bucket key : Str} {existing : Option Manifest} {im : Option Str} {Q : Unit → Ghost → Prop}
    (hq : Q () g) : Keeps (discipline env) (checkIfMatch env bucket key existing im) g Q := by
  unfold checkIfMatch
  split
  · exact keeps_ok.mpr hq
  · exact keeps_bind.mpr (keeps_existingMatches fun _ => keeps_ensure.mpr fun _ => hq)

theorem keeps_checkIfNoneMatch {bucket key : Str} {existing : Option Manifest} {inm : Option Str}
    {Q : Unit → Ghost → Prop} (hq : Q () g) :
    Keeps (discipline env) (checkIfNoneMatch env bucket key existing inm) g Q := by
  unfold checkIfNoneMatch
  split
  · exact keeps_ok.mpr hq
  · exact keeps_bind.mpr (keeps_existingMatches fun _ => keeps_ensure.mpr fun _ => hq)

theorem keeps_checkPutPreconditions {bucket key : Str} {headers : HeaderMap} {Q : Unit → Ghost → Prop}
    (hq : ∀ g', g'.granted = g.granted → Q () g') :
    Keeps (discipline env) (checkPutPreconditions env bucket key headers) g Q := by
  unfold checkPutPreconditions
  simp only
  split
  · exact keeps_ok.mpr (hq _ rfl)
  · simp only [keeps_bind, keeps_op]
    refine ⟨trivial, fun r _ => keeps_checkIfMatch ?_⟩
    exact keeps_checkIfNoneMatch (hq _ rfl)

theorem keeps_lockForPut {cfg : Option ObjectLockConfig} {l : Option ObjectLock} {Q : Option ObjectLock → Ghost → Prop}
    (hq : ∀ l, Q l g) : Keeps (discipline env) (lockForPut cfg l) g Q := by
  unfold lockForPut defaultLockForBucket
  split
  · exact keeps_ok.mpr (hq _)
  · split
    · exact keeps_ok.mpr (hq _)
    · simp only [keeps_bind, keeps_op]
      refine ⟨trivial, fun now _ => ?_⟩
      split
      · exact keeps_pure.mpr (hq _)
      · simp only [keeps_bind, keeps_pure, addDays]
        split
        · exact keeps_ok.mpr (hq _)
        · exact keeps_panicked

/-! ## The requests -/

section
variable {bucket key : Str}

theorem key_clear {vid : Str} (hb : NulFree bucket) (hk : NulFree key) (hv : NulFree vid) :
    (⟨bucket, key, vid⟩ : ManifestKey).NulFree := ⟨hb, hk, hv⟩

theorem putObject_keeps {headers : HeaderMap} {body : Bytes} (hb : NulFree bucket) (hk : NulFree key)
    (hg : g.granted = none) : Keeps (discipline env) (putObject env bucket key headers body) g fun _ _ => True := by
  simp only [putObject, keeps_bind, keeps_ofExcept, keeps_ensure, keeps_op, keeps_mapErr]
  refine keeps_requireBucket fun cfg => keeps_checkPutPreconditions fun g1 hg1 => ?_
  intro md5 _ _ checksum _ _ hverify
  refine ⟨trivial, fun written hw => keeps_nextVersionId fun vid d hvid hd => ?_⟩
  intro tags _ headerLock _
  refine keeps_lockForPut fun lock => ⟨trivial, fun now _ => keeps_etagOf fun etag _ => ⟨?_, fun r _ effect _ => ?_⟩⟩
  · obtain rfl : written = writeResult env body := hw
    refine ⟨key_clear hb hk hvid, hd, .single _ _ _ _ _ _ _ fun ac hac => ?_⟩
    -- the checksum of the headers was verified against the body
    cases hac
    unfold verifyGiven Checksum.verify at hverify
    simp only at hverify
    split at hverify
    · assumption
    · cases hverify
  · exact keeps_gcFreedParts (hg1.trans hg) (keeps_ok.mpr trivial)

theorem copyObject_keeps {source : CopySource} {headers : HeaderMap} (hb : NulFree bucket) (hk : NulFree key)
    (hg : g.granted = none) : Keeps (discipline env) (copyObject env bucket key source headers) g fun _ _ => True := by
  simp only [copyObject, keeps_bind, keeps_orFail, keeps_op, keeps_mapErr]
  refine ⟨trivial, fun _ _ cfg _ => keeps_resolveSource fun src g1 hg1 hseen hs hkind => ?_⟩
  refine keeps_nextVersionId fun vid d hvid hd => ⟨trivial, fun now _ => keeps_etagOf fun etag _ => ⟨?_, ?_⟩⟩
  · exact ⟨key_clear hb hk hvid, hd, .copy src _ _ _ hseen hs hkind⟩
  · intro r _ effect _
    exact keeps_gcFreedParts (hg1.trans hg) (keeps_ok.mpr trivial)

theorem getOrHeadObject_keeps {versionId : Option Str} {headers : HeaderMap} {bodyOnlyHeaders : Bool} :
    Keeps (discipline env) (getOrHeadObject env bucket key versionId headers bodyOnlyHeaders) g fun _ _ => True := by
  simp only [getOrHeadObject, keeps_bind, keeps_ensure]
  refine keeps_requireBucket fun _ => keeps_findVersion fun m g1 _ => keeps_etagOf fun etag _ => ?_
  split
  · exact keeps_ok.mpr trivial
  · simp only [keeps_bind, keeps_ofExcept]
    intro range _
    unfold readBody
    split
    · exact keeps_ok.mpr (keeps_ok.mpr trivial)
    · refine keeps_bind.mpr (keeps_readParts fun buf => ?_)
      split
      · unfold sliceInclusive
        split
        · exact keeps_ok.mpr (keeps_ok.mpr trivial)
        · exact keeps_panicked
      · exact keeps_ok.mpr (keeps_ok.mpr trivial)

theorem deleteSpecificVersion_keeps {vid : Str} (hg : g.granted = none) :
    Keeps (discipline env) (deleteSpecificVersion bucket key vid) g fun _ _ => True := by
  simp only [deleteSpecificVersion, keeps_bind, keeps_op, keeps_ok]
  refine ⟨trivial, fun found _ => keeps_checkNotLocked ?_⟩
  exact keeps_removeManifest hg fun _ => trivial

theorem insertDeleteMarker_keeps {versioning : VersioningState} (hb : NulFree bucket) (hk : NulFree key)
    (hg : g.granted = none) : Keeps (discipline env) (insertDeleteMarker bucket key versioning) g fun _ _ => True := by
  simp only [insertDeleteMarker, keeps_bind, keeps_op, keeps_mapErr, keeps_ok]
  refine keeps_nextVersionId fun vid d hvid hd => ⟨trivial, fun now _ => ⟨?_, fun r _ effect _ => ?_⟩⟩
  · exact ⟨key_clear hb hk hvid, hd, .tombstone _ _⟩
  · exact keeps_gcFreedParts hg trivial

theorem deleteObject_keeps {versionId : Option Str} (hb : NulFree bucket) (hk : NulFree key) (hg : g.granted = none) :
    Keeps (discipline env) (deleteObject bucket key versionId) g fun _ _ => True := by
  simp only [deleteObject, keeps_bind]
  refine keeps_requireBucket fun cfg => ?_
  split
  · exact deleteSpecificVersion_keeps hg
  · split
    · simp only [keeps_bind, keeps_op, keeps_ok]
      exact ⟨trivial, fun _ _ => keeps_checkNotLocked (keeps_removeManifest hg fun _ => trivial)⟩
    · exact insertDeleteMarker_keeps hb hk hg
    · exact insertDeleteMarker_keeps hb hk hg

theorem createMultipartUpload_keeps {headers : HeaderMap} (hb : NulFree bucket) (hk : NulFree key)
    (hg : g.granted = none) : Keeps (discipline env) (createMultipartUpload bucket key headers) g fun _ _ => True := by
  simp only [createMultipartUpload, keeps_bind, keeps_op, keeps_mapErr, keeps_ok]
  refine keeps_requireBucket fun _ => ⟨trivial, fun vid hvid => ⟨trivial, fun now _ => ⟨?_, fun r _ effect _ => ?_⟩⟩⟩
  · exact ⟨key_clear hb hk hvid, Or.inr rfl, .upload _ _ _ rfl⟩
  · exact keeps_gcFreedParts hg trivial

theorem uploadPart_keeps {uploadId : Str} {partNumber : Nat} {headers : HeaderMap} {body : Bytes}
    (hg : g.granted = none) :
    Keeps (discipline env) (uploadPart env bucket key uploadId partNumber headers body) g fun _ _ => True := by
  simp only [uploadPart, keeps_bind, keeps_ensure, keeps_ofExcept, keeps_op, keeps_mapErr, keeps_ok]
  intro hn _ _ _
  refine ⟨trivial, fun written hw => ⟨?_, fun r _ effect _ => keeps_gcFreedParts hg trivial⟩⟩
  obtain rfl : written = writeResult env body := hw
  exact ⟨hn.1, hn.2, body, rfl⟩

theorem uploadPartCopy_keeps {uploadId : Str} {partNumber : Nat} {source : CopySource} {headers : HeaderMap}
    (hg : g.granted = none) :
    Keeps (discipline env) (uploadPartCopy env bucket key uploadId partNumber source headers) g fun _ _ => True := by
  simp only [uploadPartCopy, keeps_bind, keeps_ensure, keeps_ofExcept, keeps_op, keeps_mapErr, keeps_ok]
  intro hn
  refine keeps_resolveSource fun src g1 hg1 _ _ _ range _ => keeps_readRange fun payload => ?_
  refine ⟨trivial, fun written hw => ⟨?_, fun r _ effect _ => ?_⟩⟩
  · obtain rfl : written = writeResult env payload := hw
    exact ⟨hn.1, hn.2, payload, rfl⟩
  · exact keeps_gcFreedParts (hg1.trans hg) ⟨trivial, fun _ _ => trivial⟩

theorem selectParts_subset {stored : List PartRef} {request : List (Nat × Str)} {selected : List PartRef}
    (h : selectParts bucket key stored request = .ok selected) : ∀ p ∈ selected, p ∈ stored := by
  induction request generalizing selected with
  | nil => cases h; exact fun _ hp => absurd hp List.not_mem_nil
  | cons req request ih =>
    simp only [selectParts] at h
    split at h
    · cases h
    · rename_i p hp
      split at h
      · cases hr : selectParts bucket key stored request with
        | error e => rw [hr] at h; cases h
        | ok ps =>
          rw [hr] at h
          cases h
          intro q hq
          rcases List.mem_cons.mp hq with rfl | hq
          · exact List.mem_of_find?_eq_some hp
          · exact ih hr q hq
      · cases h

theorem completeMultipartUpload_keeps {uploadId : Str} {body : Bytes} (hb : NulFree bucket) (hk : NulFree key)
    (hg : g.granted = none) :
    Keeps (discipline env) (completeMultipartUpload env bucket key uploadId body) g fun _ _ => True := by
  simp only [completeMultipartUpload, keeps_bind, keeps_ensure, keeps_ofExcept, keeps_op, keeps_mapErr, keeps_ok]
  intro request _ _ _
  refine keeps_findUpload fun up g1 hg1 hread hup selected hsel => ?_
  have hsum : ∀ {Q : Unit → Ghost → Prop}, Q () g1 → Keeps (discipline env) (checkSizeSum env selected) g1 Q := by
    intro Q hQ
    unfold checkSizeSum
    split
    · exact keeps_panicked
    · exact keeps_ok.mpr hQ
  refine hsum ⟨trivial, fun now _ => keeps_etagOf fun etag _ => ⟨?_, fun r _ effect _ => ?_⟩⟩
  · exact ⟨hb, hk, up, selected, now, hread, hup, selectParts_subset hsel, rfl⟩
  · exact keeps_gcFreedParts (hg1.trans hg) trivial

theorem abortMultipartUpload_keeps {uploadId : Str} (hg : g.granted = none) :
    Keeps (discipline env) (abortMultipartUpload bucket key uploadId) g fun _ _ => True := by
  simp only [abortMultipartUpload, keeps_bind, keeps_op, keeps_mapErr, keeps_ok]
  refine keeps_findUpload fun up g1 hg1 _ _ => ⟨trivial, fun r _ effect _ => ?_⟩
  exact keeps_gcFreedParts (hg1.trans hg) trivial

theorem listParts_keeps {uploadId : Str} :
    Keeps (discipline env) (listParts env bucket key uploadId) g fun _ _ => True := by
  simp only [listParts, keeps_bind, keeps_ok]
  exact keeps_findUpload fun _ _ _ _ _ => trivial

/-! ## The other requests, which store no manifest -/

theorem bucketUpdated_keeps {status : Nat} {r : Except MetaError Unit} :
    Keeps (discipline env) (bucketUpdated bucket status r) g fun _ _ => True := by
  unfold bucketUpdated
  split
  · exact keeps_ok.mpr trivial
  · exact keeps_fail
  · exact keeps_fail

theorem createBucket_keeps {headers : HeaderMap} :
    Keeps (discipline env) (createBucket env bucket headers) g fun _ _ => True := by
  simp only [createBucket, keeps_bind, keeps_op]
  refine ⟨trivial, fun _ _ => ⟨trivial, fun r _ => ?_⟩⟩
  split
  · exact keeps_ok.mpr trivial
  · exact keeps_fail
  · exact keeps_fail

theorem deleteBucket_keeps : Keeps (discipline env) (deleteBucket bucket) g fun _ _ => True := by
  simp only [deleteBucket, keeps_bind, keeps_op]
  refine ⟨trivial, fun r _ => ?_⟩
  split
  · exact keeps_ok.mpr trivial
  · exact keeps_fail
  · exact keeps_fail
  · exact keeps_fail

theorem putBucketObjectLockConfig_keeps {body : Bytes} :
    Keeps (discipline env) (putBucketObjectLockConfig env bucket body) g fun _ _ => True := by
  simp only [putBucketObjectLockConfig, keeps_bind, keeps_ofExcept, keeps_ensure, keeps_op, keeps_mapErr, keeps_ok]
  exact fun _ _ => keeps_requireBucket fun _ _ _ _ => ⟨trivial, fun _ _ _ _ => trivial⟩

theorem putObjectRetention_keeps {versionId : Option Str} {body : Bytes} :
    Keeps (discipline env) (putObjectRetention env bucket key versionId body) g fun _ _ => True := by
  simp only [putObjectRetention, keeps_bind, keeps_ofExcept, keeps_orFail, keeps_ensure, keeps_op, keeps_mapErr, keeps_ok]
  exact fun _ _ _ _ _ _ => keeps_loadTarget fun _ _ _ _ => ⟨trivial, fun _ _ _ _ => trivial⟩

theorem putObjectLegalHold_keeps {versionId : Option Str} {body : Bytes} :
    Keeps (discipline env) (putObjectLegalHold env bucket key versionId body) g fun _ _ => True := by
  simp only [putObjectLegalHold, keeps_bind, keeps_ofExcept, keeps_op, keeps_mapErr, keeps_ok]
  exact fun _ _ _ _ => keeps_loadTarget fun _ _ _ => ⟨trivial, fun _ _ _ _ => trivial⟩

theorem putObjectTagging_keeps {versionId : Option Str} {body : Bytes} :
    Keeps (discipline env) (putObjectTagging env bucket key versionId body) g fun _ _ => True := by
  simp only [putObjectTagging, keeps_bind, keeps_ofExcept, keeps_op, keeps_mapErr, keeps_ok]
  exact keeps_loadTarget fun _ _ _ _ _ => ⟨trivial, fun _ _ _ _ => trivial⟩

theorem deleteObjectTagging_keeps {versionId : Option Str} :
    Keeps (discipline env) (deleteObjectTagging bucket key versionId) g fun _ _ => True := by
  simp only [deleteObjectTagging, keeps_bind, keeps_op, keeps_mapErr, keeps_ok]
  exact keeps_loadTarget fun _ _ _ => ⟨trivial, fun _ _ _ _ => trivial⟩

theorem keeps_splitItems {encoding : Option Str} {items : List ListItem}
    {Q : List ObjectContent × List Str → Ghost → Prop} (hq : ∀ r, Q r g) :
    Keeps (discipline env) (splitItems env encoding items) g Q := by
  induction items generalizing Q with
  | nil => exact keeps_ok.mpr (hq _)
  | cons item items ih =>
    cases item with
    | object m =>
      simp only [splitItems, keeps_bind, keeps_ok]
      exact keeps_etagOf fun _ _ => ih fun _ => hq _
    | commonPrefix p =>
      simp only [splitItems, keeps_bind, keeps_ok]
      exact ih fun _ => hq _

theorem listObjects_keeps {query : Str} : Keeps (discipline env) (listObjects env bucket query) g fun _ _ => True := by
  simp only [listObjects, keeps_bind]
  refine keeps_requireBucket fun _ => ?_
  split
  · simp only [listV2, keeps_bind, keeps_ofExcept, keeps_op, keeps_ok]
    exact fun _ _ _ _ _ _ => ⟨trivial, fun _ _ => keeps_splitItems fun _ => trivial⟩
  · simp only [listV1, keeps_bind, keeps_ofExcept, keeps_op, keeps_ok]
    exact fun _ _ _ _ => ⟨trivial, fun _ _ => keeps_splitItems fun _ => trivial⟩

theorem keeps_splitVersions {encoding : Option Str} {entries : List ListObjectVersionEntry}
    {Q : List ObjectVersion × List DeleteMarkerEntry → Ghost → Prop} (hq : ∀ r, Q r g) :
    Keeps (discipline env) (splitVersions env encoding entries) g Q := by
  induction entries generalizing Q with
  | nil => exact keeps_ok.mpr (hq _)
  | cons entry entries ih =>
    simp only [splitVersions]
    split
    · simp only [keeps_bind, keeps_ok]
      exact keeps_etagOf fun _ _ => ih fun _ => hq _
    · simp only [keeps_bind, keeps_ok]
      exact ih fun _ => hq _

theorem listObjectVersions_keeps {query : Str} :
    Keeps (discipline env) (listObjectVersions env bucket query) g fun _ _ => True := by
  simp only [listObjectVersions, keeps_bind, keeps_ofExcept, keeps_op, keeps_ok]
  exact keeps_requireBucket fun _ _ _ => ⟨trivial, fun _ _ => keeps_splitVersions fun _ => trivial⟩

end

/-- Every request keeps to the discipline. -/
theorem request_keeps {r : Request} (hr : r.WellFormed) :
    Keeps (discipline env) (r.handler env) .start fun _ _ => True := by
  cases r <;> simp only [Request.WellFormed, Request.names, List.forall_mem_cons, List.not_mem_nil, false_implies,
    implies_true, and_true] at hr <;> simp only [Request.handler]
  case listBuckets => simp only [listBuckets, keeps_bind, keeps_op, keeps_ok]; exact ⟨trivial, fun _ _ => trivial⟩
  case createBucket => exact createBucket_keeps
  case deleteBucket => exact deleteBucket_keeps
  case putBucketVersioning =>
    simp only [putBucketVersioning, keeps_bind, keeps_ofExcept, keeps_op]
    exact fun _ _ _ _ => ⟨trivial, fun _ _ => bucketUpdated_keeps⟩
  case putBucketLifecycle =>
    simp only [putBucketLifecycle, keeps_bind, keeps_ofExcept, keeps_op]
    exact fun _ _ => ⟨trivial, fun _ _ => bucketUpdated_keeps⟩
  case putBucketCors =>
    simp only [putBucketCors, keeps_bind, keeps_ofExcept, keeps_op]
    exact fun _ _ => ⟨trivial, fun _ _ => bucketUpdated_keeps⟩
  case deleteBucketLifecycle =>
    simp only [deleteBucketLifecycle, keeps_bind, keeps_op]
    exact ⟨trivial, fun _ _ => bucketUpdated_keeps⟩
  case deleteBucketCors =>
    simp only [deleteBucketCors, keeps_bind, keeps_op]
    exact ⟨trivial, fun _ _ => bucketUpdated_keeps⟩
  case headBucket => exact keeps_bind.mpr (keeps_requireBucket fun _ => keeps_ok.mpr trivial)
  case getBucketLocation => exact keeps_bind.mpr (keeps_requireBucket fun _ => keeps_ok.mpr trivial)
  case getBucketVersioning => exact keeps_bind.mpr (keeps_requireBucket fun _ => keeps_ok.mpr trivial)
  case getBucketObjectLock => exact keeps_bind.mpr (keeps_requireBucket fun _ => keeps_ok.mpr trivial)
  case getBucketLifecycle =>
    simp only [getBucketLifecycle, keeps_bind, keeps_ensure, keeps_ok]
    exact keeps_requireBucket fun _ _ => trivial
  case getBucketCors =>
    simp only [getBucketCors, keeps_bind, keeps_ensure, keeps_ok]
    exact keeps_requireBucket fun _ _ => trivial
  case putBucketObjectLock => exact putBucketObjectLockConfig_keeps
  case listObjects => exact listObjects_keeps
  case listObjectVersions => exact listObjectVersions_keeps
  case createMultipartUpload => exact createMultipartUpload_keeps hr.1 hr.2 rfl
  case uploadPart => exact uploadPart_keeps rfl
  case uploadPartCopy => exact uploadPartCopy_keeps rfl
  case completeMultipartUpload => exact completeMultipartUpload_keeps hr.1 hr.2 rfl
  case abortMultipartUpload => exact abortMultipartUpload_keeps rfl
  case listParts => exact listParts_keeps
  case putObject => exact putObject_keeps hr.1 hr.2 rfl
  case copyObject => exact copyObject_keeps hr.1 hr.2 rfl
  case getObject => exact getOrHeadObject_keeps
  case headObject => exact getOrHeadObject_keeps
  case deleteObject => exact deleteObject_keeps hr.1 hr.2 rfl
  case putObjectTagging => exact putObjectTagging_keeps
  case deleteObjectTagging => exact deleteObjectTagging_keeps
  case putObjectRetention => exact putObjectRetention_keeps
  case putObjectLegalHold => exact putObjectLegalHold_keeps
  case getObjectTagging => exact keeps_bind.mpr (keeps_loadTarget fun _ _ _ => keeps_ok.mpr trivial)
  case getObjectRetention =>
    simp only [getObjectRetention, keeps_bind, keeps_orFail, keeps_ok]
    exact keeps_loadTarget fun _ _ _ _ _ => trivial
  case getObjectLegalHold => exact keeps_bind.mpr (keeps_loadTarget fun _ _ _ => keeps_ok.mpr trivial)

/-! ## The sweeper -/

theorem keeps_sweepParts {orphans : List Hash} {Q : Nat → Ghost → Prop} (hg : g.granted = none) (hq : ∀ n, Q n g) :
    Keeps (discipline env) (sweepParts orphans) g Q := by
  induction orphans generalizing Q with
  | nil => exact keeps_ok.mpr (hq _)
  | cons hash orphans ih =>
    simp only [sweepParts, keeps_bind, keeps_ok]
    exact keeps_collectPart hg fun _ => ih fun _ => hq _

theorem keeps_expireCurrent {bucket : Str} {versioning : VersioningState} {m : Manifest} {now : Time}
    {Q : Unit → Ghost → Prop} (hb : NulFree bucket) (hk : NulFree m.key.key)
    (hq : ∀ d, Q () { g with drawn := d }) : Keeps (discipline env) (expireCurrent bucket versioning m now) g Q := by
  have hmark : Keeps (discipline env) (do
      let newVersion ← nextVersionId versioning
      let r ← op (.metaOp (.putManifest (tombstone ⟨bucket, m.key.key, newVersion⟩ now)))
      let _ ← mapErr mapMetaErr r
      ok ()) g Q := by
    simp only [keeps_bind, keeps_op, keeps_mapErr, keeps_ok]
    refine keeps_nextVersionId fun vid d hvid hd => ⟨?_, fun r _ effect _ => hq none⟩
    exact ⟨key_clear hb hk hvid, hd, .tombstone _ _⟩
  cases versioning with
  | off =>
    simp only [expireCurrent, keeps_bind, keeps_op, keeps_mapErr, keeps_ok]
    exact ⟨trivial, fun _ _ _ _ => hq g.drawn⟩
  | enabled => exact hmark
  | suspended => exact hmark

theorem keeps_evaluateManifest {bucket : Str} {versioning : VersioningState} {m : Manifest} {current : Option Str}
    {rules : List LifecycleRule} {now : Time} {report : SweepReport} {Q : SweepReport → Ghost → Prop}
    (hb : NulFree bucket) (hk : NulFree m.key.key) (hq : ∀ r d, Q r { g with drawn := d }) :
    Keeps (discipline env) (evaluateManifest bucket versioning m current rules now report) g Q := by
  unfold evaluateManifest
  split
  · exact keeps_ok.mpr (hq _ g.drawn)
  · simp only [keeps_bind, keeps_op, keeps_mapErr, keeps_ok]
    exact ⟨trivial, fun _ _ _ _ => hq _ g.drawn⟩
  · exact keeps_bind.mpr (keeps_expireCurrent hb hk fun d => keeps_ok.mpr (hq _ d))
  · simp only [keeps_bind, keeps_op, keeps_mapErr, keeps_ok]
    exact ⟨trivial, fun _ _ _ _ => hq _ g.drawn⟩

theorem keeps_evaluateAll {bucket : Str} {versioning : VersioningState} {current : Option Str}
    {rules : List LifecycleRule} {now : Time} {ms : List Manifest} {report : SweepReport}
    {Q : SweepReport → Ghost → Prop} (hms : ∀ m ∈ ms, NulFree bucket ∧ NulFree m.key.key)
    (hq : ∀ r d, Q r { g with drawn := d }) :
    Keeps (discipline env) (evaluateAll bucket versioning current rules now report ms) g Q := by
  induction ms generalizing g report with
  | nil => exact keeps_ok.mpr (hq _ g.drawn)
  | cons m ms ih =>
    simp only [evaluateAll, keeps_bind]
    obtain ⟨hb, hk⟩ := hms m (List.mem_cons_self ..)
    exact keeps_evaluateManifest hb hk fun r d =>
      ih (fun x hx => hms x (List.mem_cons_of_mem _ hx)) fun r' d' => hq r' d'

theorem keeps_sweepKeys {bucket : Str} {versioning : VersioningState} {rules : List LifecycleRule} {now : Time}
    {byKey : List (Str × List Manifest)} {report : SweepReport} {Q : SweepReport → Ghost → Prop}
    (hms : ∀ r ∈ byKey, ∀ m ∈ r.2, NulFree bucket ∧ NulFree m.key.key) (hq : ∀ r d, Q r { g with drawn := d }) :
    Keeps (discipline env) (sweepKeys bucket versioning rules now report byKey) g Q := by
  induction byKey generalizing g report with
  | nil => exact keeps_ok.mpr (hq _ g.drawn)
  | cons r byKey ih =>
    simp only [sweepKeys, keeps_bind]
    refine keeps_evaluateAll (fun m hm => ?_) fun r' d =>
      ih (fun x hx => hms x (List.mem_cons_of_mem _ hx)) fun r' d' => hq r' d'
    exact hms r (List.mem_cons_self ..) m ((List.perm_insertionSort _ _).mem_iff.mp hm)

/-- Grouping by key keeps to the manifests given. -/
theorem mem_foldl_pushVersion {ms : List Manifest} {byKey : Table Str (List Manifest)} {r : Str × List Manifest}
    (hr : r ∈ (ms.foldl pushVersion byKey).rows) {m : Manifest} (hm : m ∈ r.2) :
    m ∈ ms ∨ ∃ r' ∈ byKey.rows, m ∈ r'.2 := by
  induction ms generalizing byKey with
  | nil => exact Or.inr ⟨r, hr, hm⟩
  | cons x ms ih =>
    rcases ih hr with h | ⟨r', hr', hm'⟩
    · exact Or.inl (List.mem_cons_of_mem _ h)
    · rcases Table.mem_insert.mp hr' with rfl | ⟨hr', -⟩
      · rcases List.mem_append.mp hm' with hm' | hm'
        · cases hx : byKey.get x.key.key with
          | none => rw [hx] at hm'; exact absurd hm' List.not_mem_nil
          | some vs => rw [hx] at hm'; exact Or.inr ⟨_, Table.mem_rows.mpr hx, hm'⟩
        · rw [List.mem_singleton.mp hm']; exact Or.inl (List.mem_cons_self ..)
      · exact Or.inr ⟨r', hr', hm'⟩

theorem keeps_sweepBuckets {now : Time} {buckets : List (Str × BucketConfig)} {report : SweepReport}
    {Q : SweepReport → Ghost → Prop} (hq : ∀ r d, Q r { g with drawn := d }) :
    Keeps (discipline env) (sweepBuckets now report buckets) g Q := by
  induction buckets generalizing g report with
  | nil => exact keeps_ok.mpr (hq _ g.drawn)
  | cons b buckets ih =>
    simp only [sweepBuckets]
    split
    · exact ih hq
    · simp only [keeps_bind, keeps_op]
      refine ⟨trivial, fun manifests hms => keeps_sweepKeys (fun r hr m hm => ?_) fun r d => ih fun r' d' => hq r' d'⟩
      rcases mem_foldl_pushVersion hr hm with h | ⟨r', hr', -⟩
      · obtain ⟨hb, hk⟩ := hms m h
        exact ⟨hb ▸ hk.bucket, hk.key⟩
      · exact absurd hr' List.not_mem_nil

theorem sweep_keeps (hg : g.granted = none) : Keeps (discipline env) sweepOnce g fun _ _ => True := by
  simp only [sweepOnce, sweepAt, sweepLifecycleAt, sweepGc, keeps_bind, keeps_op, keeps_ok]
  exact ⟨trivial, fun now _ => ⟨trivial, fun buckets _ => keeps_sweepBuckets fun report d =>
    ⟨trivial, fun orphans _ => keeps_sweepParts hg fun _ => trivial⟩⟩⟩

end

end S3lite
