/-
  S3lite.Safety.Versions — what is written in a versioned bucket, and the versions it has.

  A write stores its version under an id drawn for it. Completing an upload stores under
  "null" whatever the bucket's versioning is.
  - `versions_kept_iff`: a write of a versioned bucket keeps every committed version and is
    recorded under a new id, except where a completed upload finds a row under "null".
  - `a_completed_upload_replaces_a_version`: the object PUT before versioning was switched on.
-/
import S3lite.Safety.Pool
import S3lite.Server.Effects

namespace S3lite

open Handler

/-! ## Writes -/

/-- The requests that write a key without naming a version, and the expiration of its
    current version. -/
inductive VersionWrite where
  | put (bucket key : Str) (headers : HeaderMap) (body : Bytes)
  | copy (bucket key : Str) (source : CopySource) (headers : HeaderMap)
  | complete (bucket key uploadId : Str) (body : Bytes)
  | delete (bucket key : Str)
  | expire (bucket : Str) (m : Manifest) (now : Time)

namespace VersionWrite

def bucket : VersionWrite → Str
  | put bucket .. | copy bucket .. | complete bucket .. | delete bucket _ | expire bucket .. => bucket

def key : VersionWrite → Str
  | put _ key .. | copy _ key .. | complete _ key .. | delete _ key => key
  | expire _ m _ => m.key.key

/-- What runs: a handler, or the sweeper's step for a current version that is due. -/
def handler (env : Env) (versioning : VersioningState) : VersionWrite → Handler Unit
  | put bucket key headers body => putObject env bucket key headers body >>= fun _ => ok ()
  | copy bucket key source headers => copyObject env bucket key source headers >>= fun _ => ok ()
  | complete bucket key uploadId body => completeMultipartUpload env bucket key uploadId body >>= fun _ => ok ()
  | delete bucket key => deleteObject bucket key none >>= fun _ => ok ()
  | expire bucket m now => expireCurrent bucket versioning m now

/-- A completed upload that finds a row under "null". -/
def Replaces (env : Env) (db : Db) : VersionWrite → Prop
  | complete bucket key uploadId body => (∃ up selected, Completable env db bucket key uploadId body up selected) ∧
      (db.objects.get (ManifestKey.mk bucket key nullVersionId).encode).isSome
  | _ => False

end VersionWrite

/-- Every committed version is left as it was; and a write that succeeds is recorded under a
    version id that the key did not have. -/
structure KeepsVersions (env : Env) (write : VersionWrite) (w : World) : Prop where
  kept : ∀ slot m, w.db.objects.get slot = some m → m.state = .committed →
    (run env (write.handler env .enabled) w).2.db.objects.get slot = some m
  recorded : (run env (write.handler env .enabled) w).1 = .ok () → ∃ m,
    (run env (write.handler env .enabled) w).2.db.objects.get m.key.encode = some m ∧ m.state = .committed ∧
      m.key.bucket = write.bucket ∧ m.key.key = write.key ∧ w.db.objects.get m.key.encode = none

/-! ## One write -/

section
variable {env : Env} {w : World} {write : VersionWrite}

theorem ensures_discard {α : Type} {x : Handler α} {Q : World → Prop} {E : Failure → World → Prop}
    (h : Ensures env x w (fun _ w' => Q w') E) : Ensures env (x >>= fun _ => ok ()) w (fun _ w' => Q w') E := by
  rw [ensures_bind]
  exact h

/-- A write that stores one new version, or fails before it stores anything. -/
theorem keepsVersions_of_ensures
    (h : Ensures env (write.handler env .enabled) w
      (fun _ w' => ∃ m, w'.db.objects = w.db.objects.insert m.key.encode m ∧ m.state = .committed ∧ m.key.bucket = write.bucket ∧
        m.key.key = write.key ∧ w.db.objects.get m.key.encode = none)
      fun _ w' => w'.db.objects = w.db.objects) : KeepsVersions env write w := by
  unfold Ensures at h
  split at h
  · rename_i a w' hrun
    obtain ⟨m, hobjects, hs, hb, hk, hnew⟩ := h
    constructor
    · intro slot v hv _
      have hne : slot ≠ m.key.encode := by
        intro e
        rw [e, hnew] at hv
        cases hv
      rw [hrun, hobjects, Table.get_insert_ne _ _ hne]
      exact hv
    · intro _
      refine ⟨m, ?_, hs, hb, hk, hnew⟩
      rw [hrun, hobjects]
      exact Table.get_insert_self ..
  · rename_i e w' hrun
    constructor
    · intro slot v hv _
      rw [hrun, h]
      exact hv
    · intro hok
      rw [hrun] at hok
      cases hok

/-- In a tidy store a key has no version under the id that is drawn next. -/
theorem drawn_is_new {gs : Nat → Ghost} (henv : env.Sane) (ht : Tidy env w gs) {bucket key : Str} (hb : NulFree bucket)
    (hk : NulFree key) : w.db.objects.get (ManifestKey.mk bucket key (env.uuid w.uuids)).encode = none := by
  cases hrow : w.db.objects.get (ManifestKey.mk bucket key (env.uuid w.uuids)).encode with
  | none => rfl
  | some m =>
    obtain ⟨henc, hm⟩ := ht.row hrow
    have hkey := ManifestKey.encode_injective ⟨hb, hk, henv.uuid_clear _⟩ hm.clear henc
    rcases hm.version with hv | ⟨n, hn, hv⟩
    · rw [← hkey] at hv
      exact absurd hv (henv.uuid_ne_null _)
    · rw [← hkey] at hv
      exact absurd (henv.uuid_injective hv) (ne_of_gt hn)

/-- Completing an upload keeps the other rows, and is recorded under "null". -/
theorem keepsVersions_complete {gs : Nat → Ghost} (ht : Tidy env w gs) {bucket key uploadId : Str} {body : Bytes}
    (hb : NulFree bucket) (hk : NulFree key) :
    KeepsVersions env (.complete bucket key uploadId body) w ↔ ¬ (VersionWrite.complete bucket key uploadId body).Replaces env w.db := by
  have hens : Ensures env _ w _ _ := ensures_discard (ensures_completeMultipartUpload bucket key uploadId body)
  unfold Ensures at hens
  split at hens
  · rename_i a w' hrun
    have hrun : run env ((VersionWrite.complete bucket key uploadId body).handler env .enabled) w = (.ok a, w') := hrun
    obtain ⟨up, selected, n, w1, hcompletable, hlater, -, -, hcommits⟩ := hens
    have hobjects : w'.db.objects = (w.db.objects.insert (ManifestKey.mk bucket key nullVersionId).encode
        (completedManifest bucket key up selected (env.now n))).erase (ManifestKey.mk bucket key uploadId).encode := by
      rw [← hlater.db]
      exact hcommits.objects.1
    obtain ⟨hupkey, hup⟩ := ht.row hcompletable.row
    -- the upload has an id of its own
    have hne : (ManifestKey.mk bucket key nullVersionId).encode ≠ (ManifestKey.mk bucket key uploadId).encode := by
      intro e
      have hkey := ManifestKey.encode_injective ⟨hb, hk, null_clear⟩ hup.clear (e.trans hupkey)
      exact (hup.upload hcompletable.inProgress).1 (congrArg ManifestKey.versionId hkey).symm
    constructor
    · intro h hreplaces
      obtain ⟨m, hm, -, hmb, hmk, hnone⟩ := h.recorded (by rw [hrun])
      rw [hrun, hobjects] at hm
      have hslot : m.key.encode = (ManifestKey.mk bucket key nullVersionId).encode := by
        by_contra hother
        have hupload : m.key.encode ≠ (ManifestKey.mk bucket key uploadId).encode := by
          intro e
          rw [e, Table.get_erase_self] at hm
          cases hm
        rw [Table.get_erase_ne _ hupload, Table.get_insert_ne _ _ hother, hnone] at hm
        cases hm
      have hsome := hreplaces.2
      rw [← hslot, hnone] at hsome
      cases hsome
    · intro hno
      have hnone : w.db.objects.get (ManifestKey.mk bucket key nullVersionId).encode = none := by
        cases hnull : w.db.objects.get (ManifestKey.mk bucket key nullVersionId).encode with
        | none => rfl
        | some m => exact absurd ⟨⟨up, selected, hcompletable⟩, by rw [hnull]; rfl⟩ hno
      constructor
      · intro slot m hm hs
        have hnull : slot ≠ (ManifestKey.mk bucket key nullVersionId).encode := by
          intro e
          rw [e, hnone] at hm
          cases hm
        have hupload : slot ≠ (ManifestKey.mk bucket key uploadId).encode := by
          intro e
          rw [e, hcompletable.row] at hm
          cases hm
          rw [hcompletable.inProgress] at hs
          cases hs
        rw [hrun, hobjects, Table.get_erase_ne _ hupload, Table.get_insert_ne _ _ hnull]
        exact hm
      · intro _
        refine ⟨completedManifest bucket key up selected (env.now n), ?_, rfl, rfl, rfl, hnone⟩
        rw [hrun, hobjects]
        exact (Table.get_erase_ne _ hne).trans (Table.get_insert_self ..)
  · rename_i e w' hrun
    have hrun : run env ((VersionWrite.complete bucket key uploadId body).handler env .enabled) w = (.error e, w') := hrun
    obtain ⟨hdb, -, hnot⟩ := hens
    refine ⟨fun _ hreplaces => ?_, fun _ => ⟨fun slot m hm _ => ?_, fun hok => ?_⟩⟩
    · obtain ⟨⟨up, selected, hcompletable⟩, -⟩ := hreplaces
      exact hnot up selected hcompletable
    · rw [hrun, hdb]
      exact hm
    · rw [hrun] at hok
      cases hok

end

/-! ## Every reachable state -/

/-- In every state that requests and sweeps reach, in any interleaving: a write of a bucket
    with versioning enabled keeps every committed version and is recorded under a new id
    exactly if it is no completed upload that finds a row under "null". -/
theorem versions_kept_iff {env : Env} (henv : env.Sane) {c : ServerConfig}
    (h : Running env (Serves env) (fun _ _ _ => True) c) (write : VersionWrite) (hb : NulFree write.bucket) (hk : NulFree write.key)
    {cfg : BucketConfig} (hcfg : c.world.db.buckets.get write.bucket = some cfg) (hv : cfg.versioning = .enabled) :
    KeepsVersions env write c.world ↔ ¬ write.Replaces env c.world.db := by
  obtain ⟨ht, -, -⟩ := running_sound henv (fun _ hp => hp) (I := fun _ _ => True) trivial (fun _ _ _ _ => trivial)
    (fun _ _ _ _ _ _ _ => trivial) h
  have hnew := drawn_is_new henv ht hb hk
  have hversion : versionIdFor env c.world cfg.versioning = env.uuid c.world.uuids := by
    rw [hv]
    rfl
  cases write with
  | complete bucket key uploadId body => exact keepsVersions_complete ht hb hk
  | put bucket key headers body =>
    refine iff_of_true (keepsVersions_of_ensures ?_) id
    simp only [VersionWrite.handler, ensures_bind, ensures_ok]
    refine (ensures_putObject bucket key headers body).mono (fun _ w' hput => ?_) fun _ w' hrefused => congrArg Db.objects hrefused.db
    obtain ⟨m, w1, hready, hputs⟩ := hput
    obtain ⟨cfg', headerLock, lock, tags, checksum, n, hcfg', -, -, -, -, -, rfl⟩ := hready.manifest
    rw [show (VersionWrite.put bucket key headers body).bucket = bucket from rfl, hcfg'] at hcfg
    cases hcfg
    rw [hversion] at hputs
    have hobjects := hputs.objects.1
    rw [hready.db] at hobjects
    exact ⟨_, hobjects, rfl, rfl, rfl, hnew⟩
  | copy bucket key source headers =>
    refine iff_of_true (keepsVersions_of_ensures ?_) id
    simp only [VersionWrite.handler, ensures_bind, ensures_ok]
    refine (ensures_copyObject bucket key source headers).mono (fun _ w' hcopy => ?_) fun _ w' hrefused => congrArg Db.objects hrefused.1
    obtain ⟨cfg', src, n, w1, hcfg', -, hready, hputs⟩ := hcopy
    rw [show (VersionWrite.copy bucket key source headers).bucket = bucket from rfl, hcfg'] at hcfg
    cases hcfg
    rw [hversion] at hputs
    have hobjects := hputs.objects.1
    rw [hready.db] at hobjects
    exact ⟨_, hobjects, rfl, rfl, rfl, hnew⟩
  | delete bucket key =>
    refine iff_of_true (keepsVersions_of_ensures ?_) id
    unfold VersionWrite.handler deleteObject
    simp only [ensures_bind, ensures_requireBucket, ensures_ok]
    refine ⟨fun cfg' hcfg' => ?_, fun _ => trivial⟩
    rw [show (VersionWrite.delete bucket key).bucket = bucket from rfl, hcfg'] at hcfg
    cases hcfg
    rw [hv]
    refine (ensures_insertDeleteMarker bucket key .enabled).mono (fun _ w' hmark => ?_) fun _ w' hrefused => congrArg Db.objects hrefused.1
    obtain ⟨n, w1, hready, hputs⟩ := hmark
    have hobjects := hputs.objects.1
    rw [hready.db] at hobjects
    exact ⟨_, hobjects, rfl, rfl, rfl, hnew⟩
  | expire bucket m now =>
    refine iff_of_true (keepsVersions_of_ensures ?_) id
    have hon : VersioningState.enabled ≠ .off := by decide
    refine (ensures_expireCurrent hon m now).mono (fun _ w' hmark => ?_) fun _ w' hdb => congrArg Db.objects hdb
    exact ⟨tombstone ⟨bucket, m.key.key, env.uuid c.world.uuids⟩ now, hmark.1, rfl, rfl, rfl, hnew⟩

/-! ## An object from before -/

/-- An object PUT, versioning switched on, and an upload of its key. -/
def switchedOn : List Event :=
  [.request 0 (.createBucket (str "bucket") []), .steps 0 2,
    .request 0 (.putObject (str "bucket") (str "k") [] (str "b")), .steps 0 4,
    .request 0 (.putBucketVersioning (str "bucket")
      (str "<VersioningConfiguration><Status>Enabled</Status></VersioningConfiguration>")), .steps 0 1,
    .request 0 (.createMultipartUpload (str "bucket") (str "k") []), .steps 0 4,
    .request 0 (.uploadPart (str "bucket") (str "k") (str "aaaaa") 1 [] (str "a")), .steps 0 2]

/-- The bucket is versioned, and has the object under "null". -/
def isSwitchedOn (c : ServerConfig) : Bool :=
  ((c.world.db.buckets.get (str "bucket")).any fun cfg => decide (cfg.versioning = .enabled)) &&
    (c.world.db.objects.get (ManifestKey.mk (str "bucket") (str "k") nullVersionId).encode).any fun m => decide (m.state = .committed)

theorem versions_kept_iff_put : ∃ c, Running sampleEnv (Serves sampleEnv) (fun _ _ _ => True) c ∧ isSwitchedOn c = true ∧
    KeepsVersions sampleEnv (.put (str "bucket") (str "k") [] (str "a")) c.world := by
  apply running_reaches 1 switchedOn (fun _ _ _ => true) isSwitchedOn
  · exact fun _ _ _ _ _ => trivial
  · rfl
  · rfl
  · intro c hc hq
    have hon := hq
    unfold isSwitchedOn at hon
    rw [Bool.and_eq_true] at hon
    obtain ⟨cfg, hcfg, hv⟩ := (Option.any_eq_true _ _).mp hon.1
    exact ⟨hq, (versions_kept_iff sampleEnv_sane hc (.put (str "bucket") (str "k") [] (str "a")) (by decide) (by decide) hcfg
      (of_decide_eq_true hv)).mpr id⟩

def completing : VersionWrite :=
  .complete (str "bucket") (str "k") (str "aaaaa")
    (str "<CompleteMultipartUpload><Part><PartNumber>1</PartNumber><ETag>\"0cc175b9c0f1b6a831c399e269772661\"</ETag></Part></CompleteMultipartUpload>")

/-- After the upload is completed there is another object under "null". -/
def isReplaced (c : ServerConfig) : Bool :=
  (c.world.db.objects.get (ManifestKey.mk (str "bucket") (str "k") nullVersionId).encode).any fun m =>
    decide (m.state = .committed) && (((run sampleEnv (completing.handler sampleEnv .enabled) c.world).2.db.objects.get
      (ManifestKey.mk (str "bucket") (str "k") nullVersionId).encode).all fun m' => decide (m'.uploadMode ≠ m.uploadMode))

set_option maxRecDepth 4000 in
theorem a_completed_upload_replaces_a_version :
    ¬ ∀ c, Running sampleEnv (ServesOnly sampleEnv (fun _ => true) false) (fun _ _ _ => True) c → ∀ write cfg,
      NulFree write.bucket → NulFree write.key → c.world.db.buckets.get write.bucket = some cfg → cfg.versioning = .enabled →
        KeepsVersions sampleEnv write c.world := by
  apply running_refutes 1 switchedOn (fun _ _ _ => true) fun c => isSwitchedOn c && isReplaced c
  · exact fun _ _ _ _ _ => trivial
  · rfl
  · rfl
  · intro c hq hall
    rw [Bool.and_eq_true, isSwitchedOn, Bool.and_eq_true] at hq
    obtain ⟨cfg, hcfg, hv⟩ := (Option.any_eq_true _ _).mp hq.1.1
    obtain ⟨m, hm, hreplaced⟩ := (Option.any_eq_true _ _).mp hq.2
    rw [Bool.and_eq_true] at hreplaced
    have hkept := (hall completing cfg (by decide) (by decide) hcfg (of_decide_eq_true hv)).kept _ m hm (of_decide_eq_true hreplaced.1)
    rw [hkept, Option.all_some] at hreplaced
    exact of_decide_eq_true hreplaced.2 rfl

end S3lite
