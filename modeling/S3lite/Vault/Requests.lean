/-
  S3lite.Vault.Requests — one request, served alone: the world and the vault that it shows take
  the same step.

  `Simulates env w s r`: the answer is one that the vault gives, and the world afterwards shows
  the vault afterwards.
  - `simulates_plain`: the requests that read, and those about tags, locks and the rest of a
    bucket's configuration, change nothing that is shown.
  - `simulates_…`: each of the others.
  - `simulates_request`: all of them.
-/
import S3lite.Vault.Uploads
import S3lite.Safety.Buckets

namespace S3lite

open Handler

/-- What every step of the request has to meet. -/
def Fits (env : Env) (w : World) (op : Op) : Prop := Ranged env w op ∧ AppendsToUpload w op

/-- A request served in a world that requests served one after the other leave. -/
structure Settled (env : Env) (w : World) (r : Request) : Prop where
  sane : env.Sane
  clock : StrictMono env.now
  wellFormed : r.WellFormed
  fits : MeetsAll env (Fits env) (r.handler env) w
  steady : Steady env w .start .start
  stocked : Stocked env w .start .start
  after : Steady env (run env (r.handler env) w).2 .start .start

def Simulates (env : Env) (w : World) (s : Vault) (r : Request) : Prop :=
  ∃ s', s.Serves env r (run env (r.handler env) w).1 s' ∧ Shows env (run env (r.handler env) w).2 s'

section
variable {env : Env} {w w' : World} {s : Vault} {r : Request}

theorem simulates (hreplies : s.Replies env (run env (r.handler env) w).1 r)
    (hdone : ∀ resp w', run env (r.handler env) w = (.ok resp, w') → ∃ s', s.Becomes env resp s' r ∧ Shows env w' s')
    (hrefused : ∀ e w', run env (r.handler env) w = (.error e, w') → Shows env w' s) : Simulates env w s r := by
  obtain ⟨answer, w', hrun⟩ : ∃ answer w', run env (r.handler env) w = (answer, w') := ⟨_, _, rfl⟩
  unfold Simulates
  rw [hrun] at hreplies ⊢
  cases answer with
  | ok resp =>
    obtain ⟨s', hs', hshows⟩ := hdone resp w' hrun
    refine ⟨s', ⟨hreplies, fun resp' e => ?_, fun e he => ?_⟩, hshows⟩
    · cases e
      exact hs'
    · cases he
  | error e =>
    refine ⟨s, ⟨hreplies, fun resp e => ?_, fun _ _ => rfl⟩, hrefused e w' hrun⟩
    cases e

/-- A request whose success the vault decides. -/
theorem succeeds_iff {Q : Response → World → Prop} {E : Failure → World → Prop} (h : Ensures env (r.handler env) w Q E) {p : Prop}
    (hq : ∀ resp w', Q resp w' → p) (he : ∀ e w', E e w' → ¬ p) : Vault.Succeeds (run env (r.handler env) w).1 ↔ p := by
  unfold Ensures at h
  unfold Vault.Succeeds
  split at h
  · rename_i resp w' hrun
    rw [hrun]
    exact iff_of_true ⟨resp, rfl⟩ (hq _ _ h)
  · rename_i e w' hrun
    rw [hrun]
    refine iff_of_false (fun hok => ?_) (he _ _ h)
    obtain ⟨resp, hresp⟩ := hok
    cases hresp

/-! ## What shows nothing -/

/-- The operation is about neither a bucket's versioning, nor which rows there are, nor their parts. -/
def Op.plain : Op → Bool
  | .metaOp (.updateBucketCors ..) | .metaOp (.updateBucketObjectLock ..) | .metaOp (.updateBucketLifecycle ..) => true
  | op => op.reads || op.edits

namespace Request

/-- The request changes nothing that is shown. -/
def plain : Request → Bool
  | putBucketLifecycle .. | deleteBucketLifecycle _ | putBucketCors .. | deleteBucketCors _ | putBucketObjectLock .. => true
  | r => r.reading || r.editing

end Request

theorem reads_plain {op : Op} (h : op.reads = true) : op.plain = true := by
  unfold Op.plain
  split
  · rfl
  · rfl
  · rfl
  · rw [h, Bool.true_or]

theorem edits_plain {op : Op} (h : op.edits = true) : op.plain = true := by
  unfold Op.plain
  split
  · rfl
  · rfl
  · rfl
  · rw [h, Bool.or_true]

theorem plain_performs (h : r.plain = true) : Performs (fun op => op.plain = true) (r.handler env) := by
  have hreads : ReadsAmong fun op => op.plain = true := fun _ => reads_plain
  cases r with
  | putBucketLifecycle bucket body =>
    exact performs_bind (performs_ofExcept _) fun _ => performs_bind (performs_op rfl) fun _ => performs_bucketUpdated _ _ _
  | putBucketCors bucket body =>
    exact performs_bind (performs_ofExcept _) fun _ => performs_bind (performs_op rfl) fun _ => performs_bucketUpdated _ _ _
  | deleteBucketLifecycle bucket => exact performs_bind (performs_op rfl) fun _ => performs_bucketUpdated _ _ _
  | deleteBucketCors bucket => exact performs_bind (performs_op rfl) fun _ => performs_bucketUpdated _ _ _
  | putBucketObjectLock bucket body =>
    exact performs_bind (performs_ofExcept _) fun _ => performs_bind (performs_requireBucket hreads.looks _) fun _ =>
      performs_bind (performs_ensure _ _) fun _ => performs_bind (performs_ofExcept _) fun _ =>
        performs_bind (performs_op rfl) fun _ => performs_bind (performs_mapErr _ _) fun _ => performs_ok _
  | putObjectTagging | deleteObjectTagging | putObjectRetention | putObjectLegalHold =>
    exact editing_performs hreads.looks (fun _ => edits_plain) rfl
  | _ => exact reading_performs hreads.looks (fun _ => hreads _ rfl) h

/-- A bucket keeps how it versions. -/
theorem Shows.bucketEdited (hs : Shows env w s) (hdb : WellKeyed w.db) (name : Str) {f : BucketConfig → BucketConfig}
    (hf : ∀ cfg, (f cfg).versioning = cfg.versioning) {now : Nat} (hnow : w.clock ≤ now) :
    WellKeyed (commit_ w.db (updateBucket w.db name f)).2 ∧
      Shows env { w with db := (commit_ w.db (updateBucket w.db name f)).2, clock := now } s := by
  refine commit_keeps_ (P := fun db => WellKeyed db ∧ Shows env { w with db := db, clock := now } s) ⟨hdb, ?_⟩ fun db' e => ?_
  · exact hs.untouched ⟨rfl, rfl⟩ hnow
  unfold updateBucket at e
  cases hcfg : w.db.buckets.get name with
  | none =>
    rw [hcfg] at e
    cases e
  | some cfg =>
    rw [hcfg] at e
    cases e
    have hshows : Shows env { w with db := { w.db with buckets := w.db.buckets.insert name (f cfg) }, clock := now }
        (s.configure name (some (f cfg).versioning)) := hs.configure (f cfg) rfl rfl rfl hnow
    have hv := hs.versioning name
    rw [hcfg, Option.map_some, ← hf] at hv
    have hsame : s.configure name (some (f cfg).versioning) = s := by
      unfold Vault.configure
      rw [← hv, Function.update_eq_self]
    rw [hsame] at hshows
    exact ⟨hdb, hshows⟩

/-- A manifest is edited in what it does not show. -/
theorem Shows.manifestEdited (hs : Shows env w s) (hdb : WellKeyed w.db) (k : ManifestKey) {f : Manifest → Manifest}
    (hf : ∀ m, (f m).key = m.key ∧ (f m).state = m.state ∧ (f m).kind = m.kind ∧ (f m).parts = m.parts ∧
      (f m).lastModified = m.lastModified) {now : Nat} (hnow : w.clock ≤ now) :
    WellKeyed (commit_ w.db (updateManifest w.db k f)).2 ∧
      Shows env { w with db := (commit_ w.db (updateManifest w.db k f)).2, clock := now } s := by
  refine commit_keeps_ (P := fun db => WellKeyed db ∧ Shows env { w with db := db, clock := now } s) ⟨hdb, ?_⟩ fun db' e => ?_
  · exact hs.untouched ⟨rfl, rfl⟩ hnow
  obtain ⟨m, hm, rfl⟩ := update_ok e
  obtain ⟨hslot, hclear⟩ := hdb _ (Table.mem_rows.mpr hm)
  refine ⟨hdb.insert (m := f m) (by rw [(hf m).1]; exact hclear) ?_, hs.edit hdb hm hf rfl rfl rfl hnow⟩
  rw [(hf m).1]
  exact congrArg (fun slot => w.db.objects.insert slot (f m)) hslot

theorem Shows.plain_step {op : Op} (h : WellKeyed w.db ∧ Shows env w s) (hop : op.plain = true) :
    WellKeyed (exec env op w).2.db ∧ Shows env (exec env op w).2 s := by
  obtain ⟨hdb, hs⟩ := h
  have hread : op.reads = true → WellKeyed (exec env op w).2.db ∧ Shows env (exec env op w).2 s := by
    intro hreads
    obtain ⟨hdb', hfiles, -, hclock⟩ := @exec_reads env op hreads w
    refine ⟨?_, hs.untouched ⟨hdb', hfiles⟩ hclock⟩
    rw [hdb']
    exact hdb
  have hclock : w.clock ≤ w.clock + 2 := Nat.le_add_right ..
  cases op with
  | metaOp op =>
    cases op with
    | updateBucketCors name rules => exact hs.bucketEdited (f := fun cfg => { cfg with corsRules := rules }) hdb name (fun _ => rfl) hclock
    | updateBucketObjectLock name lock =>
      exact hs.bucketEdited (f := fun cfg => { cfg with objectLock := lock }) hdb name (fun _ => rfl) hclock
    | updateBucketLifecycle name rules =>
      exact hs.bucketEdited (f := fun cfg => { cfg with lifecycleRules := rules }) hdb name (fun _ => rfl) hclock
    | updateManifestTags key tags =>
      exact hs.manifestEdited (f := fun m => { m with tags := tags }) hdb key (fun _ => ⟨rfl, rfl, rfl, rfl, rfl⟩) hclock
    | updateManifestLock key lock =>
      exact hs.manifestEdited (f := fun m => { m with objectLock := lock }) hdb key (fun _ => ⟨rfl, rfl, rfl, rfl, rfl⟩) hclock
    | _ => first | exact hread rfl | cases hop
  | _ => first | exact hread rfl | cases hop

theorem simulates_plain (h : Settled env w r) (hs : Shows env w s) (hr : r.plain = true)
    (hreplies : s.Replies env (run env (r.handler env) w).1 r) : Simulates env w s r := by
  have hshows : Shows env (run env (r.handler env) w).2 s :=
    (performs_run (I := fun w => WellKeyed w.db ∧ Shows env w s) (plain_performs hr) (fun _ _ hi hop => Shows.plain_step hi hop)
      ⟨h.steady.tidy.wellKeyed, hs⟩).2
  refine simulates hreplies (fun resp w' hrun => ⟨s, ?_, ?_⟩) fun e w' hrun => ?_
  · cases r <;> first | rfl | cases hr
  · rw [hrun] at hshows
    exact hshows
  · rw [hrun] at hshows
    exact hshows

/-! ## Reads -/

section
variable {bucket key id : Str} {versionId : Option Str} {headers : HeaderMap}

theorem fails {x : Handler Response} {codes : List S3ErrorCode}
    (h : Ensures env x w (fun _ _ => False) fun e _ => ∃ e', e = .error e' ∧ e'.code ∈ codes) : Vault.Fails codes (run env x w).1 := by
  unfold Ensures at h
  split at h
  · exact h.elim
  · rename_i e w' hrun
    obtain ⟨e', rfl, hcode⟩ := h
    rw [hrun]
    exact ⟨e', rfl, hcode⟩

/-- No version is found. -/
theorem ensures_findVersion_none (hdb : WellKeyed w.db)
    (hnone : (foundVersion w.db bucket key versionId).filter (fun m => m.state = .committed) = none) {Q : Manifest → World → Prop}
    {E : Failure → World → Prop} (he : E (.error (noSuchKey bucket key)) { w with clock := w.clock + 2 }) :
    Ensures env (findVersion bucket key versionId) w Q E := by
  cases versionId with
  | some vid =>
    have hfound : (exec env (.metaOp (.getManifest ⟨bucket, key, vid⟩)) w).1.filter (fun m => m.state = .committed) = none := hnone
    unfold findVersion
    simp only [ensures_bind, ensures_op, ensures_orFail, hfound]
    exact ⟨fun a ha => (by cases ha), fun _ => he⟩
  | none =>
    have hlatest : handleGetLatestVersion w.db bucket key = none := by
      cases hfound : handleGetLatestVersion w.db bucket key with
      | none => rfl
      | some m =>
        have hc := (mem_versionsOf.mp (get_latest_mem hdb hfound)).2.1
        rw [foundVersion, hfound, Option.filter_some, if_pos (decide_eq_true hc)] at hnone
        cases hnone
    have hfound : (exec env (.metaOp (.getLatestVersion bucket key)) w).1 = none := hlatest
    unfold findVersion
    simp only [ensures_bind, ensures_op, ensures_orFail, hfound]
    exact ⟨fun a ha => (by cases ha), fun _ => he⟩

/-- A GET of what is not there. -/
theorem getObject_fails (hdb : WellKeyed w.db)
    (hnone : (foundVersion w.db bucket key versionId).filter (fun m => m.state = .committed) = none) :
    Vault.Fails [if w.db.buckets.get bucket = none then .noSuchBucket else .noSuchKey]
      (run env (getOrHeadObject env bucket key versionId headers false) w).1 := by
  have hfail : Ensures env (getOrHeadObject env bucket key versionId headers false) w (fun _ _ => False) fun e _ => ∃ e', e = .error e' ∧
      e'.code ∈ [if w.db.buckets.get bucket = none then S3ErrorCode.noSuchBucket else .noSuchKey] := by
    simp only [getOrHeadObject, ensures_bind, ensures_requireBucket]
    refine ⟨fun cfg hcfg => ?_, fun hcfg => ⟨_, rfl, ?_⟩⟩
    · refine ensures_findVersion_none (w := { w with clock := w.clock + 2 }) hdb hnone ⟨_, rfl, ?_⟩
      rw [hcfg, if_neg (Option.some_ne_none cfg)]
      exact List.mem_singleton_self _
    · rw [hcfg, if_pos rfl]
      exact List.mem_singleton_self _
  exact fails hfail

theorem getObject_replies {g : Ghost} {gr : Ground} (hsteady : Steady env w g gr) (hstocked : Stocked env w g gr) (hs : Shows env w s) :
    s.Replies env (run env (getOrHeadObject env bucket key versionId headers false) w).1 (.getObject bucket key versionId headers) := by
  have hdb := hsteady.tidy.wellKeyed
  intro hc
  rw [hs.look hdb]
  cases hfilter : (foundVersion w.db bucket key versionId).filter fun m => m.state = .committed with
  | none =>
    obtain ⟨e, he, hcode⟩ := @getObject_fails env w bucket key versionId headers hdb hfilter
    refine ⟨e, he, ?_⟩
    rw [List.mem_singleton.mp hcode]
    split
    · exact List.mem_cons_self ..
    · exact List.mem_cons_of_mem _ (List.mem_singleton_self _)
  | some m =>
    obtain ⟨hm, hstate⟩ := Option.filter_eq_some_iff.mp hfilter
    have hstate := of_decide_eq_true hstate
    obtain ⟨⟨slot, hslot⟩, hbucket⟩ := hsteady.bucket_of_found hm
    have hintact := hstocked.intact hslot
    cases hk : m.kind with
    | object =>
      obtain ⟨etag, hetag⟩ := Option.isSome_iff_exists.mp
        ((hstocked.measured _ (Table.mem_rows.mpr hslot)).etag_isSome hstate hk)
      have hget := ensures_getObject hbucket hm hstate hk hetag hintact hc
      simp only [Option.map_some, shown, hk, if_true]
      unfold Vault.Sends
      rw [hintact.length]
      unfold Ensures at hget
      split at hget
      · rename_i resp w' hrun
        obtain ⟨range, hrange, rfl⟩ := hget
        rw [hrun, hrange]
        cases range with
        | none => exact ⟨_, rfl, sendsWhole hintact⟩
        | some r =>
          obtain ⟨hle, hlt⟩ := parseRangeHeader_inside hrange
          exact ⟨_, rfl, sendsRange hintact hle hlt⟩
      · rename_i e w' hrun
        obtain ⟨e', rfl, hrange⟩ := hget
        rw [hrun, hrange]
    | tombstone =>
      have hne : ManifestKind.tombstone ≠ ManifestKind.object := by decide
      simp only [Option.map_some, shown, hk, if_neg hne]
      have hfail : Ensures env (getOrHeadObject env bucket key versionId headers false) w (fun _ _ => False)
          fun e _ => ∃ e', e = .error e' ∧ e'.code ∈ [if versionId = none then S3ErrorCode.noSuchKey else .invalidRequest] := by
        simp only [getOrHeadObject, ensures_bind, ensures_requireBucket, ensures_ensure]
        refine ⟨fun _ _ => ?_, fun hnone => by rw [hnone] at hbucket; cases hbucket⟩
        refine ensures_findVersion (w := { w with clock := w.clock + 2 }) hm hstate ⟨fun hobject => ?_, fun _ => ⟨_, rfl, ?_⟩⟩
        · rw [hk] at hobject
          cases hobject
        · rw [List.mem_singleton]
          split <;> rfl
      exact fails hfail

theorem listParts_replies {g : Ghost} {gr : Ground} (hsteady : Steady env w g gr) (hstocked : Stocked env w g gr) (hs : Shows env w s) :
    s.Replies env (run env (listParts env bucket key id) w).1 (.listParts bucket key id) := by
  simp only [Vault.Replies]
  rw [hs.uploads]
  cases hup : uploadAt w bucket key id with
  | none =>
    have hfail : Ensures env (listParts env bucket key id) w (fun _ _ => False)
        fun e _ => ∃ e', e = .error e' ∧ e'.code ∈ [S3ErrorCode.noSuchUpload] := by
      simp only [listParts, findUpload, ensures_bind, ensures_op, ensures_orFail, ensures_ok]
      refine ⟨fun up hfound => ?_, fun _ => ⟨_, rfl, List.mem_singleton_self _⟩⟩
      obtain ⟨hrow, hstate⟩ := Option.filter_eq_some_iff.mp hfound
      have hsome := uploadAt_eq.mpr ⟨hrow, fun hc => by rw [hc] at hstate; cases hstate⟩
      rw [hup] at hsome
      cases hsome
    exact fails hfail
  | some up =>
    obtain ⟨hrow, hstate⟩ := uploadAt_eq.mp hup
    have hmem := Table.mem_rows.mpr hrow
    have hfilter : (exec env (.metaOp (.getManifest ⟨bucket, key, id⟩)) w).1.filter (fun m => m.state = .inProgress) = some up :=
      Option.filter_eq_some_iff.mpr ⟨hrow, decide_eq_true (hsteady.tidy.inProgress hrow hstate)⟩
    have hlist : Ensures env (listParts env bucket key id) w (fun resp _ => resp = .ofXml (.listParts bucket key id 1000 false
        (up.parts.map fun p => ⟨p.partNumber, etagOfMd5 p.md5, p.size, env.formatRfc3339 up.lastModified⟩))) fun _ _ => False := by
      simp only [listParts, findUpload, ensures_bind, ensures_op, ensures_orFail, ensures_ok, hfilter]
      refine ⟨fun up' e => ?_, fun e => by cases e⟩
      cases e
      rfl
    unfold Ensures at hlist
    split at hlist
    · rename_i resp w' hrun
      rw [hrun]
      refine ⟨_, _, rfl, by rw [hlist]; rfl, ?_⟩
      have hasc := hs.ascending _ hmem hstate
      refine ⟨List.pairwise_map.mpr hasc, fun q hq => ?_, fun n c hc => ?_⟩
      · obtain ⟨p, hp, rfl⟩ := List.mem_map.mp hq
        have hfind := hasc.find_iff.mpr ⟨hp, rfl⟩
        obtain ⟨data, hdata, hlen⟩ := hstocked.parts _ hmem p hp
        refine ⟨contentOf w p, ?_, ?_, ?_⟩
        · unfold piecesOf
          rw [hfind]
          rfl
        · rw [← hs.digests _ hmem p hp]
        · unfold contentOf
          rw [hdata]
          exact hlen.symm
      · obtain ⟨p, hp, -⟩ := Option.map_eq_some_iff.mp hc
        obtain ⟨hp, hn⟩ := hasc.find_iff.mp hp
        exact ⟨_, List.mem_map.mpr ⟨p, hp, rfl⟩, hn⟩
    · exact hlist.elim

end

/-! ## Buckets -/

section
variable {bucket : Str}

theorem commitUnit_ok {db db' : Db} : commit_ db (.ok db') = (.ok (), db') := rfl

theorem commitUnit_error {db : Db} {e : MetaError} : commit_ db (.error e) = (.error e, db) := rfl

theorem ensures_createBucket (bucket : Str) (headers : HeaderMap) : Ensures env (createBucket env bucket headers) w
    (fun _ w' => w.db.buckets.get bucket = none ∧
      w' = { w with db := { w.db with buckets := w.db.buckets.insert bucket (newBucketConfig env headers (env.now w.clock)) }
                    clock := w.clock + 3 })
    fun _ w' => w.db.buckets.get bucket ≠ none ∧ Later w w' := by
  unfold createBucket
  simp only [ensures_bind, ensures_op]
  rcases Option.eq_none_or_eq_some (w.db.buckets.get bucket) with hcfg | ⟨cfg, hcfg⟩
  · have hcreate : handleCreateBucket w.db bucket (newBucketConfig env headers (env.now w.clock)) =
        .ok { w.db with buckets := w.db.buckets.insert bucket (newBucketConfig env headers (env.now w.clock)) } := by
      unfold handleCreateBucket
      rw [hcfg]
      rfl
    simp only [exec, MetaOp.exec, hcreate, commitUnit_ok]
    exact ⟨hcfg, rfl⟩
  · have hcreate : handleCreateBucket w.db bucket (newBucketConfig env headers (env.now w.clock)) = .error (.bucketExists bucket) := by
      unfold handleCreateBucket
      rw [hcfg]
      rfl
    simp only [exec, MetaOp.exec, hcreate, commitUnit_error]
    refine ⟨fun e => ?_, rfl, rfl, rfl, ?_⟩
    · rw [hcfg] at e
      cases e
    · show w.clock ≤ w.clock + 1 + 2
      omega

theorem simulates_createBucket {headers : HeaderMap} (hs : Shows env w s) : Simulates env w s (.createBucket bucket headers) := by
  have hcreate := @ensures_createBucket env w bucket headers
  have hv : s.versioning bucket = none ↔ w.db.buckets.get bucket = none := by
    rw [hs.versioning, Option.map_eq_none_iff]
  refine simulates ?_ (fun resp w' hrun => ⟨_, rfl, ?_⟩) fun e w' hrun => hs.later (hcreate.error hrun).2
  · exact succeeds_iff hcreate (fun _ _ h => hv.mpr h.1) fun _ _ h hnone => h.1 (hv.mp hnone)
  · obtain ⟨-, rfl⟩ := hcreate.ok hrun
    exact hs.configure (newBucketConfig env headers (env.now w.clock)) rfl rfl rfl (Nat.le_add_right ..)

/-- The scan of `delete_bucket` finds no row when the vault has nothing in the bucket. -/
theorem Shows.vacant_iff (hs : Shows env w s) (hdb : WellKeyed w.db) (hb : NulFree bucket) :
    s.Vacant bucket ↔ (bucketRange w.db bucket).isEmpty = true := by
  rw [List.isEmpty_iff, List.eq_nil_iff_forall_not_mem]
  have hmem : ∀ r, r ∈ bucketRange w.db bucket ↔ r ∈ w.db.objects.rows ∧ r.2.key.bucket = bucket := by
    intro r
    unfold bucketRange
    rw [Table.mem_range]
    refine and_congr_right fun hr => ?_
    obtain ⟨hslot, hclear⟩ := hdb r hr
    rw [hslot]
    exact bucket_range_iff hclear hb
  constructor
  · intro hvacant r hr
    obtain ⟨hrow, hbucket⟩ := (hmem r).mp hr
    obtain ⟨hhistory, huploads⟩ := hvacant r.2.key.key
    by_cases hstate : r.2.state = .committed
    · obtain ⟨ms, -, hms, he⟩ := hs.history bucket r.2.key.key
      have hm : r.2 ∈ ms := (hms _).mpr (mem_versionsOf.mpr ⟨⟨r.1, hrow⟩, hstate, hbucket, rfl⟩)
      rw [hhistory] at he
      rw [List.map_eq_nil_iff.mp he.symm] at hm
      cases hm
    · have hget : w.db.objects.get (ManifestKey.mk bucket r.2.key.key r.2.key.versionId).encode = some r.2 := by
        have hget := Table.get_of_mem hrow
        rw [(hdb r hrow).1] at hget
        subst hbucket
        exact hget
      have hup := huploads r.2.key.versionId
      rw [hs.upload hget hstate] at hup
      cases hup
  · intro hempty key
    refine ⟨?_, fun id => ?_⟩
    · obtain ⟨ms, -, hms, he⟩ := hs.history bucket key
      rw [he, List.map_eq_nil_iff, List.eq_nil_iff_forall_not_mem]
      intro m hm
      obtain ⟨⟨slot, hrow⟩, -, hbucket, -⟩ := mem_versionsOf.mp ((hms m).mp hm)
      exact hempty _ ((hmem _).mpr ⟨hrow, hbucket⟩)
    · rw [hs.uploads, Option.map_eq_none_iff]
      cases hup : uploadAt w bucket key id with
      | none => rfl
      | some up =>
        obtain ⟨hrow, -⟩ := uploadAt_eq.mp hup
        refine absurd ((hmem _).mpr ⟨Table.mem_rows.mpr hrow, ?_⟩) (hempty _)
        show up.key.bucket = bucket
        rw [hdb.key_of_get hrow]

theorem ensures_deleteBucket (bucket : Str) : Ensures env (deleteBucket bucket) w
    (fun _ w' => w.db.buckets.get bucket ≠ none ∧ (bucketRange w.db bucket).isEmpty = true ∧
      w' = { w with db := { w.db with buckets := w.db.buckets.erase bucket }, clock := w.clock + 2 })
    fun _ w' => ¬ (w.db.buckets.get bucket ≠ none ∧ (bucketRange w.db bucket).isEmpty = true) ∧ Later w w' := by
  have hlater : Later w { w with clock := w.clock + 2 } := ⟨rfl, rfl, rfl, Nat.le_add_right ..⟩
  unfold deleteBucket
  simp only [ensures_bind, ensures_op]
  rcases Option.eq_none_or_eq_some (w.db.buckets.get bucket) with hcfg | ⟨cfg, hcfg⟩
  · have hdelete : handleDeleteBucket w.db bucket = .error (.bucketNotFound bucket) := by
      unfold handleDeleteBucket
      rw [hcfg]
      rfl
    simp only [exec, MetaOp.exec, hdelete, commitUnit_error]
    exact ⟨fun h => h.1 hcfg, hlater⟩
  · by_cases hempty : (bucketRange w.db bucket).isEmpty = true
    · have hdelete : handleDeleteBucket w.db bucket = .ok { w.db with buckets := w.db.buckets.erase bucket } := by
        unfold handleDeleteBucket
        rw [hcfg, hempty]
        rfl
      simp only [exec, MetaOp.exec, hdelete, commitUnit_ok]
      refine ⟨fun e => ?_, hempty, rfl⟩
      rw [hcfg] at e
      cases e
    · have hdelete : handleDeleteBucket w.db bucket = .error (.bucketNotEmpty bucket) := by
        unfold handleDeleteBucket
        rw [hcfg, Option.isNone_some, if_neg Bool.false_ne_true, if_neg hempty]
      simp only [exec, MetaOp.exec, hdelete, commitUnit_error]
      exact ⟨fun h => hempty h.2, hlater⟩

theorem simulates_deleteBucket (h : Settled env w (.deleteBucket bucket)) (hs : Shows env w s) :
    Simulates env w s (.deleteBucket bucket) := by
  have hdelete := @ensures_deleteBucket env w bucket
  have hdb := h.steady.tidy.wellKeyed
  have hcond : s.versioning bucket ≠ none ∧ s.Vacant bucket ↔
      w.db.buckets.get bucket ≠ none ∧ (bucketRange w.db bucket).isEmpty = true := by
    rw [hs.versioning, ne_eq, Option.map_eq_none_iff, hs.vacant_iff hdb (h.wellFormed _ (List.mem_singleton_self _))]
  refine simulates ?_ (fun resp w' hrun => ⟨_, rfl, ?_⟩) fun e w' hrun => hs.later (hdelete.error hrun).2
  · exact succeeds_iff hdelete (fun _ _ h => hcond.mpr ⟨h.1, h.2.1⟩) fun _ _ h hc => h.1 (hcond.mp hc)
  · obtain ⟨-, -, rfl⟩ := hdelete.ok hrun
    exact hs.removeBucket rfl rfl rfl (Nat.le_add_right ..)

/-- The body says how the bucket is to version. -/
def Configurable (env : Env) (bucket : Str) (body : Bytes) (v : VersioningState) : Prop :=
  ∃ status, env.xmlVersioning body = .ok status ∧ versioningStateOf bucket status = .ok v

theorem ensures_putBucketVersioning (bucket : Str) (body : Bytes) : Ensures env (putBucketVersioning env bucket body) w
    (fun _ w' => ∃ v, ∃ cfg : BucketConfig, Configurable env bucket body v ∧ w.db.buckets.get bucket = some cfg ∧ w' = { w with
      db := { w.db with buckets := w.db.buckets.insert bucket { cfg with versioning := v } }
      clock := w.clock + 2 })
    fun _ w' => (w.db.buckets.get bucket = none ∨ ∀ v, ¬ Configurable env bucket body v) ∧ Later w w' := by
  have hlater : Later w { w with clock := w.clock + 2 } := ⟨rfl, rfl, rfl, Nat.le_add_right ..⟩
  unfold putBucketVersioning
  simp only [ensures_bind, ensures_ofExcept_mapError]
  refine ⟨fun status hstatus => ?_, fun e he => ⟨Or.inr fun v hv => ?_, .refl w⟩⟩
  · simp only [ensures_ofExcept, ensures_op]
    refine ⟨fun v hv => ?_, fun e he => ⟨Or.inr fun v hv => ?_, .refl w⟩⟩
    · rcases Option.eq_none_or_eq_some (w.db.buckets.get bucket) with hcfg | ⟨cfg, hcfg⟩
      · have hupdate : handleUpdateBucketVersioning w.db bucket v = .error (.bucketNotFound bucket) := by
          unfold handleUpdateBucketVersioning updateBucket
          rw [hcfg]
        simp only [exec, MetaOp.exec, hupdate, commitUnit_error]
        exact ⟨Or.inl hcfg, hlater⟩
      · have hupdate : handleUpdateBucketVersioning w.db bucket v =
            .ok { w.db with buckets := w.db.buckets.insert bucket { cfg with versioning := v } } := by
          unfold handleUpdateBucketVersioning updateBucket
          rw [hcfg]
        simp only [exec, MetaOp.exec, hupdate, commitUnit_ok]
        exact ⟨v, cfg, ⟨status, hstatus, hv⟩, hcfg, rfl⟩
    · obtain ⟨status', hstatus', hv⟩ := hv
      rw [hstatus] at hstatus'
      cases hstatus'
      rw [he] at hv
      cases hv
  · obtain ⟨status, hstatus, -⟩ := hv
    rw [he] at hstatus
    cases hstatus

theorem simulates_putBucketVersioning {body : Bytes} (hs : Shows env w s) :
    Simulates env w s (.putBucketVersioning bucket body) := by
  have hput := @ensures_putBucketVersioning env w bucket body
  refine simulates trivial (fun resp w' hrun => ?_) fun e w' hrun => hs.later (hput.error hrun).2
  obtain ⟨v, cfg, ⟨status, hstatus, hv⟩, -, rfl⟩ := hput.ok hrun
  exact ⟨_, ⟨status, v, hstatus, hv, rfl⟩, hs.configure { cfg with versioning := v } rfl rfl rfl (Nat.le_add_right ..)⟩

end

end

end S3lite
