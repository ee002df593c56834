/-
  S3lite.Safety.Sequential — requests and sweeps served one after the other.

  - `Sequential`: the worlds between them, from the empty store, with every step meeting a
    condition.
  - `grounding`: what a request does rests on what it has seen. It puts a manifest into a
    bucket it found, and references parts it wrote or parts of a manifest it read.
  - `Steady`: what holds in all of these worlds, and within each request, as long as no count
    saturates. Counts are exact, every row's bucket exists, and every live part has its file,
    under its hash.
  - `Steady.step` for one operation, `Steady.served` for one request, `sequential_sound` for a
    run, each together with an invariant of one's own.
-/
import S3lite.Safety.Interlock
import S3lite.Safety.Buckets
import S3lite.Safety.Uploads
import S3lite.Server.Performs

namespace S3lite

open Handler

/-- The worlds between requests and sweeps that run one after the other. -/
inductive Sequential (env : Env) (Fits : World → Op → Prop) : World → Prop
  | empty : Sequential env Fits .empty
  | serve {w : World} (p : Prog Op Op.Res Unit) : Sequential env Fits w → Serves env p → p.Meets (exec env) Fits w →
      Sequential env Fits (p.run (exec env) w).2

/-! ## What a request rests on -/

structure Ground where
  /-- What was written, while nothing is unlinked. -/
  written : List Bytes
  /-- The buckets found, while none is deleted. -/
  buckets : List Str
  /-- The manifests read, while no row changes. -/
  read : List Manifest

def Ground.start : Ground := ⟨[], [], []⟩

namespace Ground

def nextMeta (g : Ground) : (op : MetaOp) → op.Res → Ground
  | .getBucket name, some _ => { g with buckets := name :: g.buckets }
  | .listBuckets, r => { g with buckets := r.map (·.1) ++ g.buckets }
  | .deleteBucket _, _ => { g with buckets := [] }
  | .getManifest _, r => { g with read := r.toList ++ g.read }
  | .getLatestVersion .., r => { g with read := r.toList ++ g.read }
  | .putManifest _, _ | .deleteManifest _, _ | .appendPart .., _ | .completeMultipartUpload .., _ | .updateManifestState .., _
  | .updateManifestTags .., _ | .updateManifestLock .., _ => { g with read := [] }
  | _, _ => g

def next (g : Ground) : (op : Op) → op.Res → Ground
  | .writeBytes data, _ => { g with written := data :: g.written }
  | .deletePart _, _ => { g with written := [] }
  | .metaOp op, r => g.nextMeta op r
  | _, _ => g

theorem nextMeta_written (g : Ground) (op : MetaOp) (r : op.Res) : (g.nextMeta op r).written = g.written := by
  cases op with
  | getBucket name => cases r <;> rfl
  | _ => rfl

/-- The part was written, or is one of a manifest read. -/
def Has (env : Env) (g : Ground) (p : PartRef) : Prop :=
  (∃ data ∈ g.written, p.hash = env.blake3 data ∧ p.size = data.length) ∨ ∃ src ∈ g.read, p ∈ src.parts

def Allows (env : Env) (g : Ground) : Op → Prop
  | .metaOp (.putManifest m) => m.key.bucket ∈ g.buckets ∧ ∀ p ∈ m.parts, g.Has env p
  | .metaOp (.appendPart _ part) => g.Has env part
  | .metaOp (.completeMultipartUpload _ m) => ∀ p ∈ m.parts, g.Has env p
  | _ => True

/-- Whatever the one rests on, the other does. -/
structure Le (g g' : Ground) : Prop where
  written : ∀ data ∈ g.written, data ∈ g'.written
  buckets : ∀ b ∈ g.buckets, b ∈ g'.buckets
  read : ∀ m ∈ g.read, m ∈ g'.read

theorem Le.refl (g : Ground) : g.Le g := ⟨fun _ h => h, fun _ h => h, fun _ h => h⟩

theorem Le.trans {a b c : Ground} (h : a.Le b) (h' : b.Le c) : a.Le c :=
  ⟨fun x hx => h'.written x (h.written x hx), fun x hx => h'.buckets x (h.buckets x hx), fun x hx => h'.read x (h.read x hx)⟩

/-- Reading takes nothing away. -/
theorem le_next_of_reads (g : Ground) {o : Op} (ho : o.reads = true) (r : o.Res) : g.Le (g.next o r) := by
  have hread : ∀ ms : List Manifest, g.Le { g with read := ms ++ g.read } := fun ms =>
    ⟨fun _ h => h, fun _ h => h, fun _ h => List.mem_append_right _ h⟩
  have hbuckets : ∀ names : List Str, g.Le { g with buckets := names ++ g.buckets } := fun names =>
    ⟨fun _ h => h, fun _ h => List.mem_append_right _ h, fun _ h => h⟩
  cases o with
  | metaOp o =>
    cases o with
    | getBucket name =>
      cases r with
      | none => exact .refl g
      | some cfg => exact hbuckets [name]
    | listBuckets => exact hbuckets _
    | getManifest key => exact hread _
    | getLatestVersion bucket key => exact hread _
    | getPart _ | listGcPendingParts | listObjects _ | listObjectVersions _ | listAllManifestsInBucket _ | listOrphanParts
    | listDlq => exact .refl g
    | _ => cases ho
  | readPart hash => exact .refl g
  | nowUtc => exact .refl g
  | _ => cases ho

end Ground

def grounding (env : Env) : Prog.Protocol Op Op.Res Ground where
  ok := Ground.Allows env
  res := fun _ op r => op.Sound env r
  next := Ground.next

section
variable {env : Env} {g : Ground}

@[simp] theorem grounding_ok (op : Op) : (grounding env).ok g op = g.Allows env op := rfl

@[simp] theorem grounding_res (op : Op) (r : op.Res) : (grounding env).res g op r = op.Sound env r := rfl

@[simp] theorem grounding_next (op : Op) (r : op.Res) : (grounding env).next g op r = g.next op r := rfl

/-! ## The requests -/

theorem allows_of_reads {o : Op} (ho : o.reads = true) : g.Allows env o := by
  cases o with
  | metaOp o => cases o <;> trivial
  | _ => trivial

/-- A handler that only reads ends with no less to rest on. -/
theorem Performs.grows {α : Type} {x : Handler α} (h : Performs (fun o => o.reads = true) x) :
    Keeps (grounding env) x g fun _ g' => g.Le g' :=
  Prog.Follows.mono
    (Prog.Follows.of_only_keeping (J := fun g' => g.Le g')
      (fun g' _ hle ho => ⟨allows_of_reads ho, fun r _ => hle.trans (g'.le_next_of_reads ho r)⟩) h (.refl g))
    fun _ _ hle _ _ => hle

theorem readsAmong_self : ReadsAmong fun o => o.reads = true := fun _ h => h

theorem grounding_allowsGc : AllowsGc (grounding env) := ⟨fun _ _ => trivial, fun _ _ => trivial, fun _ _ => trivial⟩

theorem grounded_gcFreedParts {freed : List Hash} {Q : Unit → Ground → Prop} (hq : ∀ g', Q () g') :
    Keeps (grounding env) (gcFreedParts freed) g Q := grounding_allowsGc.gcFreedParts hq

theorem grounded_requireBucket {bucket : Str} {Q : BucketConfig → Ground → Prop}
    (hq : ∀ cfg g', g.Le g' → bucket ∈ g'.buckets → Q cfg g') : Keeps (grounding env) (requireBucket bucket) g Q := by
  simp only [requireBucket, keeps_bind, keeps_op, keeps_orFail]
  refine ⟨trivial, fun r _ cfg hr => ?_⟩
  subst hr
  exact hq cfg _ (g.le_next_of_reads (o := .metaOp (.getBucket bucket)) rfl (some cfg)) (List.mem_cons_self ..)

theorem grounded_nextVersionId {v : VersioningState} {Q : Str → Ground → Prop} (hq : ∀ vid, Q vid g) :
    Keeps (grounding env) (nextVersionId v) g Q := by
  cases v with
  | enabled => exact keeps_op.mpr ⟨trivial, fun r _ => hq r⟩
  | off => exact keeps_ok.mpr (hq _)
  | suspended => exact keeps_ok.mpr (hq _)

theorem grounded_resolveSource {source : CopySource} {Q : Manifest → Ground → Prop}
    (hq : ∀ src g', g.Le g' → src ∈ g'.read → Q src g') : Keeps (grounding env) (resolveSource source) g Q := by
  have hread : ∀ found : Option Manifest, ∀ src, (found.filter fun m => m.state = .committed ∧ m.kind = .object) = some src →
      src ∈ found.toList ++ g.read := fun found src h =>
    List.mem_append_left _ (Option.mem_toList.mpr (Option.filter_eq_some_iff.mp h).1)
  unfold resolveSource
  rw [keeps_bind]
  cases hv : source.versionId with
  | none =>
    refine keeps_op.mpr ⟨trivial, fun r _ => keeps_orFail.mpr fun src hsrc => hq src _ ?_ (hread r src hsrc)⟩
    exact g.le_next_of_reads (o := .metaOp (.getLatestVersion source.bucket source.key)) rfl r
  | some vid =>
    refine keeps_op.mpr ⟨trivial, fun r _ => keeps_orFail.mpr fun src hsrc => hq src _ ?_ (hread r src hsrc)⟩
    exact g.le_next_of_reads (o := .metaOp (.getManifest ⟨source.bucket, source.key, vid⟩)) rfl r

theorem grounded_findUpload {bucket key uploadId : Str} {Q : Manifest → Ground → Prop} (hq : ∀ up g', up ∈ g'.read → Q up g') :
    Keeps (grounding env) (findUpload bucket key uploadId) g Q := by
  simp only [findUpload, keeps_bind, keeps_op, keeps_orFail]
  refine ⟨trivial, fun r _ up hup => hq up _ ?_⟩
  exact List.mem_append_left _ (Option.mem_toList.mpr (Option.filter_eq_some_iff.mp hup).1)

theorem grounded_removeManifest {key : ManifestKey} {Q : Bool → Ground → Prop} (hq : ∀ b g', Q b g') :
    Keeps (grounding env) (removeManifest key) g Q := grounding_allowsGc.removeManifest trivial hq

theorem grounded_insertDeleteMarker {bucket key : Str} {v : VersioningState} (hb : bucket ∈ g.buckets) :
    Keeps (grounding env) (insertDeleteMarker bucket key v) g fun _ _ => True := by
  simp only [insertDeleteMarker, keeps_bind, keeps_op, keeps_mapErr, keeps_ok]
  refine grounded_nextVersionId fun vid => ⟨trivial, fun now _ => ⟨⟨hb, fun _ hp => absurd hp List.not_mem_nil⟩, ?_⟩⟩
  exact fun _ _ _ _ => grounded_gcFreedParts fun _ => trivial

theorem grounded_putObject (bucket key : Str) (headers : HeaderMap) (body : Bytes) :
    Keeps (grounding env) (putObject env bucket key headers body) g fun _ _ => True := by
  simp only [putObject, keeps_bind, keeps_ofExcept, keeps_ensure, keeps_op, keeps_mapErr]
  refine grounded_requireBucket fun cfg g1 _ hb => ?_
  refine (Performs.grows (performs_checkPutPreconditions readsAmong_self.looks _ _ _)).mono fun _ g2 h2 => ?_
  intro _ _ _ checksum _ _ _
  refine ⟨trivial, fun written hw => grounded_nextVersionId fun vid => ?_⟩
  intro tags _ headerLock _
  refine (Performs.grows (performs_lockForPut readsAmong_self.consults _ _)).mono fun lock g3 h3 => ?_
  refine ⟨trivial, fun now _ => keeps_etagOf fun etag _ => ⟨⟨h3.buckets _ (h2.buckets _ hb), fun p hp => ?_⟩, ?_⟩⟩
  · rw [List.mem_singleton.mp hp]
    exact Or.inl ⟨body, h3.written _ (List.mem_cons_self ..), by rw [hw]; exact ⟨rfl, rfl⟩⟩
  · exact fun _ _ _ _ => grounded_gcFreedParts fun _ => keeps_ok.mpr trivial

theorem grounded_copyObject (bucket key : Str) (source : CopySource) (headers : HeaderMap) :
    Keeps (grounding env) (copyObject env bucket key source headers) g fun _ _ => True := by
  simp only [copyObject, keeps_bind, keeps_orFail, keeps_op, keeps_mapErr]
  refine ⟨trivial, fun r _ cfg hr => ?_⟩
  subst hr
  refine grounded_resolveSource fun src g1 h1 hsrc => grounded_nextVersionId fun vid => ⟨trivial, fun now _ => ?_⟩
  have hb : bucket ∈ g1.buckets := h1.buckets _ (List.mem_cons_self ..)
  refine keeps_etagOf fun etag _ => ⟨⟨hb, fun p hp => Or.inr ⟨src, hsrc, hp⟩⟩, fun _ _ _ _ => ?_⟩
  exact grounded_gcFreedParts fun _ => keeps_ok.mpr trivial

theorem grounded_deleteObject (bucket key : Str) (versionId : Option Str) :
    Keeps (grounding env) (deleteObject bucket key versionId) g fun _ _ => True := by
  simp only [deleteObject, keeps_bind]
  refine grounded_requireBucket fun cfg g1 _ hb => ?_
  have hdelete : ∀ {β : Type} {target : ManifestKey} {found : Option Manifest} {f : Bool → Handler β} {g' : Ground},
      (∀ b g'', Keeps (grounding env) (f b) g'' fun _ _ => True) →
        Keeps (grounding env) (do
          checkNotLocked bucket key found
          let removed ← removeManifest target
          f removed) g' fun _ _ => True := by
    intro β target found f g' hf
    rw [keeps_bind]
    refine (Performs.grows (performs_checkNotLocked readsAmong_self.consults _ _ _)).mono fun _ g2 _ => ?_
    rw [keeps_bind]
    exact grounded_removeManifest fun b g3 => hf b g3
  split
  · simp only [deleteSpecificVersion, keeps_bind (x := op _), keeps_op]
    exact ⟨trivial, fun _ _ => hdelete fun _ _ => keeps_ok.mpr trivial⟩
  · split
    · simp only [keeps_bind (x := op _), keeps_op]
      exact ⟨trivial, fun _ _ => hdelete fun _ _ => keeps_ok.mpr trivial⟩
    · exact grounded_insertDeleteMarker hb
    · exact grounded_insertDeleteMarker hb

theorem grounded_createMultipartUpload (bucket key : Str) (headers : HeaderMap) :
    Keeps (grounding env) (createMultipartUpload bucket key headers) g fun _ _ => True := by
  simp only [createMultipartUpload, keeps_bind, keeps_op, keeps_mapErr, keeps_ok]
  refine grounded_requireBucket fun _ g1 _ hb => ⟨trivial, fun vid _ => ⟨trivial, fun now _ => ⟨⟨hb, ?_⟩, ?_⟩⟩⟩
  · exact fun _ hp => absurd hp List.not_mem_nil
  · exact fun _ _ _ _ => grounded_gcFreedParts fun _ => trivial

theorem grounded_uploadPart (bucket key uploadId : Str) (partNumber : Nat) (headers : HeaderMap) (body : Bytes) :
    Keeps (grounding env) (uploadPart env bucket key uploadId partNumber headers body) g fun _ _ => True := by
  simp only [uploadPart, keeps_bind, keeps_ensure, keeps_ofExcept, keeps_op, keeps_mapErr, keeps_ok]
  intro _ _ _ _
  refine ⟨trivial, fun written hw => ⟨Or.inl ⟨body, List.mem_cons_self .., by rw [hw]; exact ⟨rfl, rfl⟩⟩, fun _ _ _ _ => ?_⟩⟩
  exact grounded_gcFreedParts fun _ => trivial

theorem grounded_uploadPartCopy (bucket key uploadId : Str) (partNumber : Nat) (source : CopySource) (headers : HeaderMap) :
    Keeps (grounding env) (uploadPartCopy env bucket key uploadId partNumber source headers) g fun _ _ => True := by
  simp only [uploadPartCopy, keeps_bind, keeps_ensure, keeps_ofExcept, keeps_op, keeps_mapErr, keeps_ok]
  intro _
  refine grounded_resolveSource fun src g1 _ _ range _ => ?_
  refine (Performs.grows (performs_readRange _ _ _ fun _ _ => rfl)).mono fun payload g2 _ => ?_
  refine ⟨trivial, fun written hw => ⟨Or.inl ⟨payload, List.mem_cons_self .., by rw [hw]; exact ⟨rfl, rfl⟩⟩, fun _ _ _ _ => ?_⟩⟩
  exact grounded_gcFreedParts fun _ => ⟨trivial, fun _ _ => trivial⟩

theorem grounded_completeMultipartUpload (bucket key uploadId : Str) (body : Bytes) :
    Keeps (grounding env) (completeMultipartUpload env bucket key uploadId body) g fun _ _ => True := by
  simp only [completeMultipartUpload, keeps_bind, keeps_ensure, keeps_ofExcept, keeps_op, keeps_mapErr, keeps_ok]
  intro request _ _ _
  refine grounded_findUpload fun up g1 hup selected hsel => ?_
  have hsum : ∀ {Q : Unit → Ground → Prop}, Q () g1 → Keeps (grounding env) (checkSizeSum env selected) g1 Q := by
    intro Q hQ
    unfold checkSizeSum
    split
    · exact keeps_panicked
    · exact keeps_ok.mpr hQ
  refine hsum ⟨trivial, fun now _ => keeps_etagOf fun etag _ => ⟨fun p hp => ?_, fun _ _ _ _ => ?_⟩⟩
  · exact Or.inr ⟨up, hup, selectParts_subset hsel p hp⟩
  · exact grounded_gcFreedParts fun _ => trivial

theorem grounded_abortMultipartUpload (bucket key uploadId : Str) :
    Keeps (grounding env) (abortMultipartUpload bucket key uploadId) g fun _ _ => True := by
  simp only [abortMultipartUpload, keeps_bind, keeps_op, keeps_mapErr, keeps_ok]
  refine grounded_findUpload fun up g1 _ => ⟨trivial, fun _ _ _ _ => ?_⟩
  exact grounded_gcFreedParts fun _ => trivial

/-- The operation rests on nothing. -/
def NoGround (env : Env) (o : Op) : Prop := ∀ g : Ground, g.Allows env o

theorem Performs.grounded {α : Type} {x : Handler α} (h : Performs (NoGround env) x) : Keeps (grounding env) x g fun _ _ => True :=
  Prog.Follows.mono (Prog.Follows.of_only (P := grounding env) (fun g _ hc => hc g) h g) fun _ _ _ _ _ => trivial

theorem request_grounded (r : Request) : Keeps (grounding env) (r.handler env) g fun _ _ => True := by
  have hreads : ReadsAmong (NoGround env) := fun _ h _ => allows_of_reads h
  by_cases hreading : r.reading = true
  · exact (reading_performs hreads.looks (fun _ => hreads _ rfl) hreading).grounded
  by_cases hconfiguring : r.configuring = true
  · refine (configuring_performs hreads.consults (fun o ho g => ?_) hconfiguring).grounded
    cases o with
    | metaOp o => cases o <;> trivial
    | _ => trivial
  by_cases hediting : r.editing = true
  · refine (editing_performs hreads.looks (fun o ho g => ?_) hediting).grounded
    cases o with
    | metaOp o => cases o <;> trivial
    | _ => trivial
  cases r with
  | createMultipartUpload => exact grounded_createMultipartUpload ..
  | uploadPart => exact grounded_uploadPart ..
  | uploadPartCopy => exact grounded_uploadPartCopy ..
  | completeMultipartUpload => exact grounded_completeMultipartUpload ..
  | abortMultipartUpload => exact grounded_abortMultipartUpload ..
  | putObject => exact grounded_putObject ..
  | copyObject => exact grounded_copyObject ..
  | deleteObject => exact grounded_deleteObject ..
  | _ => first | exact absurd rfl hreading | exact absurd rfl hconfiguring | exact absurd rfl hediting

/-! ## The sweeper -/

/-- A delete marker in one of the buckets, or an operation that needs no ground and deletes no
    bucket. -/
def Sweeps (names : List Str) : Op → Prop
  | .metaOp (.putManifest m) => m.key.bucket ∈ names ∧ m.parts = []
  | .metaOp (.appendPart ..) | .metaOp (.completeMultipartUpload ..) | .metaOp (.deleteBucket _) => False
  | _ => True

theorem Performs.sweeps {α : Type} {names : List Str} {x : Handler α} (h : Performs (Sweeps names) x)
    (hg : ∀ b ∈ names, b ∈ g.buckets) : Keeps (grounding env) x g fun _ g' => ∀ b ∈ names, b ∈ g'.buckets := by
  have hstep : ∀ (g' : Ground) (o : Op), (∀ b ∈ names, b ∈ g'.buckets) → Sweeps names o →
      g'.Allows env o ∧ ∀ r, ∀ b ∈ names, b ∈ (g'.next o r).buckets := by
    intro g' o hg' ho
    have hgrow : ∀ o' : Op, o'.reads = true → ∀ r, ∀ b ∈ names, b ∈ (g'.next o' r).buckets :=
      fun o' ho' r b hb => (g'.le_next_of_reads ho' r).buckets b (hg' b hb)
    cases o with
    | metaOp o =>
      cases o with
      | putManifest m => exact ⟨⟨hg' _ ho.1, fun p hp => absurd (ho.2 ▸ hp) List.not_mem_nil⟩, fun _ => hg'⟩
      | appendPart _ _ => cases ho
      | completeMultipartUpload _ _ => cases ho
      | deleteBucket _ => cases ho
      | getBucket name => exact ⟨trivial, hgrow (.metaOp (.getBucket name)) rfl⟩
      | listBuckets => exact ⟨trivial, hgrow (.metaOp .listBuckets) rfl⟩
      | _ => exact ⟨trivial, fun _ => hg'⟩
    | _ => exact ⟨trivial, fun _ => hg'⟩
  refine Prog.Follows.mono (Prog.Follows.of_only_keeping (P := grounding env) (J := fun g' => ∀ b ∈ names, b ∈ g'.buckets)
    (fun g' o hg' ho => ?_) h hg) fun _ _ hj _ _ => hj
  obtain ⟨hok, hnext⟩ := hstep g' o hg' ho
  exact ⟨hok, fun r _ => hnext r⟩

theorem sweep_grounded : Keeps (grounding env) sweepOnce g fun _ _ => True := by
  simp only [sweepOnce, sweepAt, sweepLifecycleAt, sweepGc, keeps_bind, keeps_op, keeps_ok]
  refine ⟨trivial, fun now _ => ⟨trivial, fun buckets _ => ?_⟩⟩
  have hsweep : SweepsAmong (Sweeps (buckets.map (·.1))) (buckets.map (·.1)) := by
    refine ⟨fun o ho => ?_, trivial, fun _ => trivial, fun _ hb _ _ _ => ⟨hb, rfl⟩⟩
    cases o with
    | metaOp o => cases o <;> trivial
    | _ => trivial
  have hfirst : Performs (Sweeps (buckets.map (·.1))) (sweepBuckets now ⟨0, 0, 0, 0⟩ buckets) :=
    performs_sweepBuckets hsweep _ _ fun b hb => List.mem_map_of_mem hb
  refine (hfirst.sweeps fun b hb => List.mem_append_left _ hb).mono fun _ g1 _ => ⟨trivial, fun orphans _ => ?_⟩
  have hparts : Performs (Sweeps []) (sweepParts orphans) :=
    performs_sweepParts (fun _ => trivial) (fun _ => trivial) (fun _ => trivial) _
  exact (hparts.sweeps fun b hb => absurd hb List.not_mem_nil).mono fun _ _ _ => trivial

end

theorem serves_grounded {env : Env} {p : Prog Op Op.Res Unit} (hp : Serves env p) :
    p.Follows (grounding env) (fun _ _ => True) .start := by
  rcases hp with ⟨r, -, rfl⟩ | rfl
  · exact (request_grounded r).discard
  · exact sweep_grounded.discard

/-! ## What every run keeps -/

/-- The ghost states of a run with one request. -/
def solo (g : Ghost) : Nat → Ghost := Function.update (fun _ => .start) 0 g

theorem solo_zero (g : Ghost) : solo g 0 = g := Function.update_self ..

theorem update_solo (g g' : Ghost) : Function.update (solo g) 0 g' = solo g' := Function.update_idem ..

/-- What a request rests on is there. -/
structure Grounded (env : Env) (w : World) (gr : Ground) : Prop where
  written : ∀ data ∈ gr.written, (w.files.get (env.blake3 data)).isSome
  buckets : ∀ b ∈ gr.buckets, (w.db.buckets.get b).isSome
  read : ∀ m ∈ gr.read, ∃ slot, w.db.objects.get slot = some m

theorem Grounded.start (env : Env) (w : World) : Grounded env w .start :=
  ⟨fun _ h => absurd h List.not_mem_nil, fun _ h => absurd h List.not_mem_nil, fun _ h => absurd h List.not_mem_nil⟩

structure Steady (env : Env) (w : World) (g : Ghost) (gr : Ground) : Prop where
  tidy : Tidy env w (solo g)
  interlock : Interlock w (solo g)
  live : LiveFiles w
  housed : Housed w.db
  named : NamedFiles env w
  grounded : Grounded env w gr

section
variable {env : Env} {w : World} {g : Ghost} {gr : Ground}

/-- Where a manifest counts as read after a step, the step changed no row. -/
theorem objects_of_mem_read {op : Op} {m : Manifest} (hm : m ∈ (gr.next op (exec env op w).1).read) :
    (exec env op w).2.db.objects = w.db.objects := by
  cases op with
  | metaOp op =>
    have hstep := exec_objects op (env.now w.clock) (env.now (w.clock + 1)) w.db
    show (op.exec (env.now w.clock) (env.now (w.clock + 1)) w.db).2.objects = w.db.objects
    generalize (op.exec (env.now w.clock) (env.now (w.clock + 1)) w.db).2.objects = o at hstep ⊢
    cases hstep with
    | same => rfl
    | _ => exact absurd hm List.not_mem_nil
  | _ => rfl

theorem mem_read_next (hdb : WellKeyed w.db) {op : Op} {m : Manifest} (hm : m ∈ (gr.next op (exec env op w).1).read) :
    m ∈ gr.read ∨ ∃ slot, w.db.objects.get slot = some m := by
  cases op with
  | metaOp op =>
    cases op with
    | getManifest key =>
      rcases List.mem_append.mp hm with hm | hm
      · exact Or.inr ⟨key.encode, Option.mem_toList.mp hm⟩
      · exact Or.inl hm
    | getLatestVersion bucket key =>
      rcases List.mem_append.mp hm with hm | hm
      · obtain ⟨⟨slot, hrow⟩, -⟩ := mem_versionsOf.mp (get_latest_mem hdb (Option.mem_toList.mp hm))
        exact Or.inr ⟨slot, Table.mem_rows.mp hrow⟩
      · exact Or.inl hm
    | getBucket name =>
      have hread : ∀ r : Option BucketConfig, (gr.nextMeta (.getBucket name) r).read = gr.read := by
        intro r
        cases r <;> rfl
      exact Or.inl (hread _ ▸ hm)
    | putManifest | deleteManifest | appendPart | completeMultipartUpload | updateManifestState | updateManifestTags
    | updateManifestLock => exact absurd hm List.not_mem_nil
    | _ => exact Or.inl hm
  | _ => exact Or.inl hm

theorem mem_buckets_next {op : Op} {b : Str} (hb : b ∈ (gr.next op (exec env op w).1).buckets) :
    b ∈ gr.buckets ∨ (w.db.buckets.get b).isSome := by
  cases op with
  | metaOp op =>
    cases op with
    | getBucket name =>
      have hread : ∀ r : Option BucketConfig, b ∈ (gr.nextMeta (.getBucket name) r).buckets → b ∈ gr.buckets ∨ b = name ∧ r.isSome := by
        intro r hb
        cases r with
        | none => exact Or.inl hb
        | some cfg =>
          rcases List.mem_cons.mp hb with hb | hb
          · exact Or.inr ⟨hb, rfl⟩
          · exact Or.inl hb
      rcases hread _ hb with hb | ⟨rfl, hsome⟩
      · exact Or.inl hb
      · exact Or.inr hsome
    | listBuckets =>
      rcases List.mem_append.mp hb with hb | hb
      · obtain ⟨r, hr, rfl⟩ := List.mem_map.mp hb
        exact Or.inr (by rw [Table.get_of_mem hr]; rfl)
      · exact Or.inl hb
    | deleteBucket => exact absurd hb List.not_mem_nil
    | _ => exact Or.inl hb
  | _ => exact Or.inl hb

/-- Where a bucket counts as found after a step, the step deleted none. -/
theorem buckets_of_mem_buckets {op : Op} {b : Str} (hb : b ∈ (gr.next op (exec env op w).1).buckets) {name : Str}
    (hname : (w.db.buckets.get name).isSome) : ((exec env op w).2.db.buckets.get name).isSome := by
  cases op with
  | metaOp op =>
    have hstep := exec_buckets op (env.now w.clock) (env.now (w.clock + 1)) w.db
    show ((op.exec (env.now w.clock) (env.now (w.clock + 1)) w.db).2.buckets.get name).isSome
    generalize (op.exec (env.now w.clock) (env.now (w.clock + 1)) w.db).2.buckets = buckets at hstep ⊢
    cases hstep with
    | same => exact hname
    | delete => exact absurd hb List.not_mem_nil
    | create =>
      rw [Table.get_insert]
      split
      · rfl
      · exact hname
    | update =>
      rw [Table.get_insert]
      split
      · rfl
      · exact hname
  | _ => exact hname

theorem Grounded.step (hdb : WellKeyed w.db) (h : Grounded env w gr) (op : Op) :
    Grounded env (exec env op w).2 (gr.next op (exec env op w).1) := by
  refine ⟨fun x hx => ?_, fun b hb => ?_, fun m hm => ?_⟩
  · cases op with
    | writeBytes data =>
      show ((writePart env w.files data).2.get (env.blake3 x)).isSome
      rw [writePart_get]
      split
      · rfl
      · rename_i hnot
        rcases List.mem_cons.mp hx with rfl | hx
        · exact Option.isSome_iff_ne_none.mpr fun hnone => hnot ⟨rfl, hnone⟩
        · exact h.written x hx
    | deletePart hash => exact absurd hx List.not_mem_nil
    | metaOp op => exact h.written x (gr.nextMeta_written op _ ▸ hx)
    | _ => exact h.written x hx
  · refine buckets_of_mem_buckets hb ?_
    rcases mem_buckets_next hb with hb | hb
    · exact h.buckets b hb
    · exact hb
  · rw [objects_of_mem_read hm]
    rcases mem_read_next hdb hm with hm | hm
    · exact h.read m hm
    · exact hm

theorem Ground.has_of_counts {op : MetaOp} (hok : gr.Allows env (.metaOp op)) {p : PartRef} (hp : p ∈ op.counts) : gr.Has env p := by
  cases op with
  | putManifest m => exact hok.2 p hp
  | appendPart key part => exact (List.mem_singleton.mp hp) ▸ hok
  | completeMultipartUpload key m => exact hok p hp
  | _ => exact absurd hp List.not_mem_nil

/-- A part that gets a row was written. -/
theorem Steady.filesFound (h : Steady env w g gr) {op : Op} (hok : gr.Allows env op) : FilesFound w op := by
  intro o ho p hp hnone
  subst ho
  rcases gr.has_of_counts hok hp with ⟨data, hdata, hhash, -⟩ | ⟨src, hsrc, hp⟩
  · rw [hhash]
    exact h.grounded.written data hdata
  · -- a part of a manifest read has a row
    obtain ⟨slot, hslot⟩ := h.grounded.read src hsrc
    have hpos : 0 < refs w.db p.hash := refs_pos.mpr ⟨_, Table.mem_rows.mpr hslot, p, hp, rfl⟩
    obtain ⟨e, he, -⟩ := (h.interlock.counted p.hash).row hpos
    rw [hnone] at he
    cases he

theorem Steady.putsHoused (h : Steady env w g gr) {op : Op} (hok : gr.Allows env op) : PutsHoused w op := by
  intro m hm
  subst hm
  exact h.grounded.buckets _ hok.1

/-- The file of a part that a row references stays as it is. -/
theorem Steady.keeps_file (h : Steady env w g gr) {op : Op} (hok : g.Allows env op) {r : Bytes × Manifest}
    (hr : r ∈ w.db.objects.rows) {p : PartRef} (hp : p ∈ r.2.parts) {data : Bytes} (hd : w.files.get p.hash = some data) :
    (exec env op w).2.files.get p.hash = some data := by
  cases op with
  | writeBytes bytes =>
    show (writePart env w.files bytes).2.get p.hash = some data
    rw [writePart_get, if_neg]
    · exact hd
    · rw [hd]
      exact fun hnew => by cases hnew.2
  | deletePart hash =>
    have hgrant : (solo g 0).granted = some hash := (solo_zero g).symm ▸ hok
    have hne : p.hash ≠ hash := by
      intro e
      have hpos : 0 < refs w.db hash := refs_pos.mpr ⟨r, hr, p, hp, e⟩
      have hzero := h.interlock.unreferenced hgrant
      omega
    show (w.files.erase hash).get p.hash = some data
    rw [Table.get_erase_ne _ hne]
    exact hd
  | _ => exact hd

/-- Every step keeps it, if no count saturates. -/
theorem Steady.step (henv : env.Sane) (h : Steady env w g gr) (op : Op) (hok : g.Allows env op) (hgr : gr.Allows env op)
    (hroom : HasRoom env w op) :
    op.Sound env (exec env op w).1 ∧ Steady env (exec env op w).2 (g.next op (exec env op w).1) (gr.next op (exec env op w).1) := by
  have hok : (solo g 0).Allows env op := (solo_zero g).symm ▸ hok
  obtain ⟨hsound, htidy⟩ := tidy_step henv h.tidy op hok
  have hlock := h.interlock.step h.tidy op hok hroom fun x _ j hj hx => by
    rw [solo, Function.update_of_ne hj] at hx
    cases hx
  rw [solo_zero, update_solo] at htidy hlock
  exact ⟨hsound, htidy, hlock, liveFiles_step h.interlock h.live op hok (h.filesFound hgr),
    housed_step h.tidy h.housed op hok (h.putsHoused hgr), h.named.step op, h.grounded.step h.tidy.wellKeyed op⟩

theorem Steady.idle (h : Steady env w g gr) : Steady env w .start .start := by
  have htidy := h.tidy.idle 0
  have hlock := h.interlock.idle 0
  rw [update_solo] at htidy hlock
  exact ⟨htidy, hlock, h.live, h.housed, h.named, .start env w⟩

theorem Steady.empty (env : Env) : Steady env .empty .start .start := by
  have hsolo : solo .start = fun _ => .start := Function.update_eq_self ..
  refine ⟨hsolo ▸ Tidy.empty env, hsolo ▸ Interlock.empty, fun _ _ h => ?_, fun _ h => absurd h List.not_mem_nil, fun _ _ h => ?_,
    .start env _⟩
  · cases h
  · cases h

variable {Fits : World → Op → Prop} {I : World → Ghost → Ground → Prop}

/-- A request, or a sweep, keeps it together with an invariant that every step keeps. -/
theorem Steady.served (henv : env.Sane) (hroom : ∀ w op, Fits w op → HasRoom env w op)
    (hstep : ∀ w g gr op, Steady env w g gr → I w g gr → g.Allows env op → gr.Allows env op → Fits w op →
      I (exec env op w).2 (g.next op (exec env op w).1) (gr.next op (exec env op w).1))
    (h : Steady env w .start .start) (hi : I w .start .start) {p : Prog Op Op.Res Unit} (hp : Serves env p)
    (hm : p.Meets (exec env) Fits w) :
    Steady env (p.run (exec env) w).2 .start .start ∧ ∃ g gr, I (p.run (exec env) w).2 g gr := by
  have hfollow := (serves_follows hp).prod (serves_grounded hp)
  obtain ⟨⟨g, gr⟩, -, hsteady, hi⟩ := hfollow.run_meets
    (I := fun (gg : Ghost × Ground) w => Steady env w gg.1 gg.2 ∧ I w gg.1 gg.2)
    (fun gg w op hi hok hfit => by
      obtain ⟨hsound, hsteady⟩ := hi.1.step henv op hok.1 hok.2 (hroom w op hfit)
      exact ⟨⟨hsound, hsound⟩, hsteady, hstep w gg.1 gg.2 op hi.1 hi.2 hok.1 hok.2 hfit⟩) hm ⟨h, hi⟩
  exact ⟨hsteady.idle, g, gr, hi⟩

/-- It holds in every world of a run one request at a time in which no count saturates, together
    with an invariant that every step keeps. -/
theorem sequential_sound (henv : env.Sane) (hroom : ∀ w op, Fits w op → HasRoom env w op) (h0 : I .empty .start .start)
    (hidle : ∀ w g gr, I w g gr → I w .start .start)
    (hstep : ∀ w g gr op, Steady env w g gr → I w g gr → g.Allows env op → gr.Allows env op → Fits w op →
      I (exec env op w).2 (g.next op (exec env op w).1) (gr.next op (exec env op w).1)) (h : Sequential env Fits w) :
    Steady env w .start .start ∧ I w .start .start := by
  induction h with
  | empty => exact ⟨.empty env, h0⟩
  | serve p _ hp hm ih =>
    obtain ⟨hsteady, g, gr, hi⟩ := ih.1.served henv hroom hstep ih.2 hp hm
    exact ⟨hsteady, hidle _ g gr hi⟩

end

theorem sequential_steady {env : Env} {Fits : World → Op → Prop} (henv : env.Sane) (hroom : ∀ w op, Fits w op → HasRoom env w op)
    {w : World} (h : Sequential env Fits w) : Steady env w .start .start :=
  (sequential_sound henv hroom (I := fun _ _ _ => True) trivial (fun _ _ _ _ => trivial) (fun _ _ _ _ _ _ _ _ _ => trivial) h).1

/-- Every part that a row references has its file. -/
theorem Steady.file {env : Env} {w : World} {g : Ghost} {gr : Ground} (h : Steady env w g gr) {r : Bytes × Manifest}
    (hr : r ∈ w.db.objects.rows) {p : PartRef} (hp : p ∈ r.2.parts) : ∃ data, w.files.get p.hash = some data := by
  obtain ⟨e, he, -, hlive⟩ := (h.interlock.counted p.hash).row (refs_pos.mpr ⟨r, hr, p, hp, rfl⟩)
  exact Option.isSome_iff_exists.mp (h.live _ e he hlive)

/-! ## Concrete runs -/

theorem world_discard {env : Env} {α : Type} (x : Handler α) (w : World) : (x.discard.run (exec env) w).2 = (run env x w).2 :=
  congrArg Prod.snd (Prog.run_bind (α := Except Failure α) (exec env) x (fun _ => .ret ()) w)

/-- Well-formed requests, one after the other, every operation of which passes the check. -/
def servedCheck (env : Env) (check : World → Op → Bool) : List Request → World → Bool
  | [], _ => true
  | r :: requests, w => decide r.WellFormed && (r.handler env).discard.meetsCheck (exec env) check w &&
      servedCheck env check requests (run env (r.handler env) w).2

theorem sequential_served {env : Env} {check : World → Op → Bool} {Fits : World → Op → Prop}
    (hcheck : ∀ w op, check w op = true → Fits w op) {requests : List Request} {w : World} (hw : Sequential env Fits w)
    (h : servedCheck env check requests w = true) : Sequential env Fits (served env w requests) := by
  induction requests generalizing w with
  | nil => exact hw
  | cons r requests ih =>
    simp only [servedCheck, Bool.and_eq_true, decide_eq_true_eq] at h
    obtain ⟨⟨hwell, hmeets⟩, hrest⟩ := h
    have hnext := hw.serve _ (Or.inl ⟨r, hwell, rfl⟩) (Prog.meets_of_check hcheck hmeets)
    rw [world_discard] at hnext
    exact ih hnext hrest

end S3lite
