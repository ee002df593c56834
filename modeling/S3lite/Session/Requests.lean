/-
  S3lite.Session.Requests — what a request served alone does to the two stores.

  - `request_does`: it leaves them alone, but for tags, locks and buckets' configurations; or it is
    refused, with its bytes left behind; or it makes one transaction.
  - `Does.cleared`, `Does.file`, `Does.stray`: what is left of the parts. `Does.timed`: when rows were
    modified.
  - `Does.touches`: what it makes of the row of a key. `Touches.upload`, `Touches.committed`: the rows
    it leaves.
-/
import S3lite.Session.Changes
import S3lite.Vault.Runs

namespace S3lite

open Handler

/-! ## Requests that write no row -/

/-- All of it but the tags and the lock. -/
def Manifest.content (m : Manifest) : Manifest := { m with tags := .empty, objectLock := none }

/-- The rows differ in tags and locks at most; what is known of buckets does not matter here. -/
structure Idle (w w' : World) : Prop where
  rows : ∀ slot, (w'.db.objects.get slot).map Manifest.content = (w.db.objects.get slot).map Manifest.content
  parts : w'.db.parts = w.db.parts
  files : w'.files = w.files
  clock : w.clock ≤ w'.clock

theorem Idle.refl (w : World) : Idle w w := ⟨fun _ => rfl, rfl, rfl, le_rfl⟩

theorem Idle.trans {w w' w'' : World} (h : Idle w w') (h' : Idle w' w'') : Idle w w'' :=
  ⟨fun slot => (h'.rows slot).trans (h.rows slot), h'.parts.trans h.parts, h'.files.trans h.files, h.clock.trans h'.clock⟩

/-- The operation reads, configures a bucket, or edits tags or a lock. -/
def Op.mild (op : Op) : Bool := op.reads || op.configures || op.edits

theorem exec_mild {env : Env} {op : MetaOp} (h : (Op.metaOp op).mild = true) (w : World) :
    (exec env (.metaOp op) w).2.db.parts = w.db.parts := by
  have hbucket : ∀ {name : Str} {f : BucketConfig → BucketConfig}, (commit_ w.db (updateBucket w.db name f)).2.parts = w.db.parts := by
    intro name f
    refine commit_keeps_ (P := fun d => d.parts = w.db.parts) rfl fun db' e => ?_
    simp only [updateBucket] at e
    split at e <;> cases e
    rfl
  have hupdate : ∀ {k : ManifestKey} {f : Manifest → Manifest}, (commit_ w.db (updateManifest w.db k f)).2.parts = w.db.parts := by
    intro k f
    refine commit_keeps_ (P := fun d => d.parts = w.db.parts) rfl fun db' e => ?_
    obtain ⟨m, -, rfl⟩ := update_ok e
    rfl
  cases op with
  | createBucket name config =>
    refine commit_keeps_ (P := fun d => d.parts = w.db.parts) rfl fun db' e => ?_
    simp only [handleCreateBucket] at e
    split at e <;> cases e
    rfl
  | deleteBucket name =>
    refine commit_keeps_ (P := fun d => d.parts = w.db.parts) rfl fun db' e => ?_
    simp only [handleDeleteBucket] at e
    split at e
    · cases e
    · split at e <;> cases e
      rfl
  | updateBucketVersioning name v => exact hbucket
  | updateBucketCors name rules => exact hbucket
  | updateBucketObjectLock name cfg => exact hbucket
  | updateBucketLifecycle name rules => exact hbucket
  | updateManifestTags key tags => exact hupdate
  | updateManifestLock key lock => exact hupdate
  | _ => first | rfl | cases h

theorem idle_of_mild {env : Env} {op : Op} (h : op.mild = true) (w : World) : Idle w (exec env op w).2 := by
  cases op with
  | metaOp op =>
    refine ⟨fun slot => ?_, exec_mild h w, rfl, Nat.le_add_right ..⟩
    have hedit : ∀ {k : ManifestKey} {m m' : Manifest}, w.db.objects.get k.encode = some m → m'.content = m.content →
        ((w.db.objects.insert k.encode m').get slot).map Manifest.content = (w.db.objects.get slot).map Manifest.content := by
      intro k m m' hm hcontent
      rw [Table.get_insert]
      split
      · rename_i e
        rw [e, hm, Option.map_some, Option.map_some, hcontent]
      · rfl
    have hstep := exec_objects op (env.now w.clock) (env.now (w.clock + 1)) w.db
    show ((op.exec (env.now w.clock) (env.now (w.clock + 1)) w.db).2.objects.get slot).map Manifest.content = _
    generalize (op.exec (env.now w.clock) (env.now (w.clock + 1)) w.db).2.objects = objects at hstep ⊢
    cases hstep with
    | same => rfl
    | tags k tags m _ hm => exact hedit hm rfl
    | lock k lock m _ hm => exact hedit hm rfl
    | _ => cases h
  | readPart hash => exact .refl w
  | nowUtc => exact ⟨fun _ => rfl, rfl, rfl, Nat.le_add_right ..⟩
  | _ => cases h

/-- The request reads, configures a bucket, or edits tags or a lock. -/
def Request.mild (r : Request) : Bool := r.reading || r.configuring || r.editing

theorem mild_performs {env : Env} {r : Request} (h : r.mild = true) : Performs (fun op => op.mild = true) (r.handler env) := by
  have hreads : ReadsAmong fun op => op.mild = true := by
    intro op hop
    unfold Op.mild
    rw [hop, Bool.true_or, Bool.true_or]
  have hconfigures : ∀ op : Op, op.configures = true → op.mild = true := by
    intro op hop
    unfold Op.mild
    rw [hop, Bool.or_true, Bool.true_or]
  have hedits : ∀ op : Op, op.edits = true → op.mild = true := by
    intro op hop
    unfold Op.mild
    rw [hop, Bool.or_true]
  unfold Request.mild at h
  rcases Bool.or_eq_true_iff.mp h with h | h
  · rcases Bool.or_eq_true_iff.mp h with h | h
    · exact reading_performs hreads.looks (fun _ => hreads _ rfl) h
    · exact configuring_performs hreads.consults hconfigures h
  · exact editing_performs hreads.looks hedits h

theorem mild_idle {env : Env} {r : Request} (h : r.mild = true) (w : World) : Idle w (run env (r.handler env) w).2 :=
  performs_run (I := fun w' => Idle w w') (mild_performs h) (fun w' _ hi hop => hi.trans (idle_of_mild hop w')) (.refl w)

/-! ## Requests that write rows -/

namespace Request

/-- The version or the upload that the request names by its id to write it. -/
def target : Request → Option ManifestKey
  | uploadPart b k id .. | uploadPartCopy b k id .. | completeMultipartUpload b k id _ | abortMultipartUpload b k id
  | deleteObject b k (some id) => some ⟨b, k, id⟩
  | _ => none

/-- The transaction that the request makes, by the rows it finds. -/
inductive Plans (w : World) : Request → Change → Prop
  | put (r : Request) (m : Manifest) : r.changes m.key.bucket m.key.key = true →
      m.key.versionId = nullVersionId ∨ w.db.objects.get m.key.encode = none → Plans w r (.put m)
  | create (r : Request) (m : Manifest) : m.state = .inProgress → w.db.objects.get m.key.encode = none → Plans w r (.put m)
  | delete (bucket key : Str) (versionId : Option Str) :
      Plans w (.deleteObject bucket key versionId) (.remove ⟨bucket, key, versionId.getD nullVersionId⟩)
  | abort (bucket key id : Str) (up : Manifest) : w.db.objects.get (ManifestKey.mk bucket key id).encode = some up →
      up.state = .inProgress → Plans w (.abortMultipartUpload bucket key id) (.remove ⟨bucket, key, id⟩)
  | append (r : Request) (key : ManifestKey) (part : PartRef) : r.target = some key → Plans w r (.append key part)
  | complete (bucket key id : Str) (body : Bytes) (m : Manifest) : m.key = ⟨bucket, key, nullVersionId⟩ →
      Plans w (.completeMultipartUpload bucket key id body) (.commit ⟨bucket, key, id⟩ m)

end Request

/-- The manifest it stores. -/
def Change.stores : Change → Option Manifest
  | .put m | .commit _ m => some m
  | _ => none

/-- When it makes the transaction, the request has written the bytes that are counted, at most. -/
structure Prepared (env : Env) (c : Change) (w w1 : World) : Prop where
  db : w1.db = w.db
  files : w1.files = w.files ∨ ∃ data, w1.files = (writePart env w.files data).2 ∧ env.blake3 data ∈ c.counts.map (·.hash)
  clock : w.clock ≤ w1.clock
  times : ∀ m, c.stores = some m → ∃ n < w1.clock, m.lastModified = env.now n

/-- What a request does. -/
inductive Does (env : Env) (w : World) (r : Request) (answer : Except Failure Response) (w' : World) : Prop
  | idle : Idle w w' → Does env w r answer w'
  | refused (data : Bytes) (e : Failure) : answer = .error e → Refused env data w w' → Does env w r answer w'
  | changed (c : Change) (w1 : World) : Prepared env c w w1 → r.Plans w c → c.Makes env w1 w' → Does env w r answer w'

section
variable {env : Env} {w w' : World} {r : Request}

/-- By what the handler ensures. -/
theorem does {Q : Response → World → Prop} {E : Failure → World → Prop} (h : Ensures env (r.handler env) w Q E)
    (hok : ∀ resp w', run env (r.handler env) w = (.ok resp, w') → Q resp w' →
      ∃ c w1, Prepared env c w w1 ∧ r.Plans w c ∧ c.Makes env w1 w')
    (herror : ∀ e w', run env (r.handler env) w = (.error e, w') → E e w' → ∃ data, Refused env data w w') :
    Does env w r (run env (r.handler env) w).1 (run env (r.handler env) w).2 := by
  obtain ⟨answer, w', hrun⟩ : ∃ answer w', run env (r.handler env) w = (answer, w') := ⟨_, _, rfl⟩
  rw [hrun]
  cases answer with
  | ok resp =>
    obtain ⟨c, w1, hprepared, hplans, hmakes⟩ := hok resp w' hrun (h.ok hrun)
    exact .changed c w1 hprepared hplans hmakes
  | error e =>
    obtain ⟨data, hrefused⟩ := herror e w' hrun (h.error hrun)
    exact .refused data e rfl hrefused

theorem Untouched.refused (h : Untouched w w') (hclock : w.clock ≤ w'.clock) : Refused env [] w w' :=
  ⟨h.db, Or.inl h.files, hclock⟩

theorem Ready.prepared {v : VersioningState} {n : Nat} {w1 : World} (h : Ready w v n w1) {m : Manifest} (hm : m.lastModified = env.now n) :
    Prepared env (.put m) w w1 := by
  refine ⟨h.db, Or.inl h.files, h.read.trans h.clock.le, fun m' e => ?_⟩
  cases e
  exact ⟨n, h.clock, hm⟩

/-- The id of a new version is "null", or no row has it. -/
theorem versionIdFor_new {g : Ghost} {gr : Ground} (henv : env.Sane) (h : Steady env w g gr) {bucket key : Str} (hb : NulFree bucket)
    (hk : NulFree key) (v : VersioningState) : versionIdFor env w v = nullVersionId ∨
      w.db.objects.get (ManifestKey.mk bucket key (versionIdFor env w v)).encode = none := by
  cases v with
  | off => exact Or.inl rfl
  | suspended => exact Or.inl rfl
  | enabled => exact Or.inr (drawn_is_new henv h.tidy hb hk)

/-- A part copy, whatever it reads. -/
theorem ensures_partCopied (bucket key uploadId : Str) (partNumber : Nat) (source : CopySource) (headers : HeaderMap) :
    Ensures env (uploadPartCopy env bucket key uploadId partNumber source headers) w
      (fun _ w' => ∃ data w1, Later w w1 ∧ Appends env ⟨bucket, key, uploadId⟩ (partRef partNumber (writeResult env data))
        { w1 with files := (writePart env w.files data).2 } w')
      fun _ w' => ∃ data, Refused env data w w' := by
  unfold uploadPartCopy
  simp only [ensures_bind, ensures_ensure, ensures_ofExcept]
  have hearly : ∀ {w1}, Later w w1 → ∃ data, Refused env data w w1 := fun h => ⟨[], h.db, Or.inl h.files, h.clock⟩
  have hlater : Later w { w with clock := w.clock + 2 } := ⟨rfl, rfl, rfl, Nat.le_add_right ..⟩
  refine ⟨fun _ => ensures_resolveSource (fun src _ => ?_) fun _ _ => hearly hlater, fun _ => hearly (.refl w)⟩
  refine ⟨fun range _ => ?_, fun _ _ => hearly hlater⟩
  refine (quiet_readSourceRange src range.1 range.2).ensures (fun data w1 h1 => ?_) fun _ w1 h1 => hearly (hlater.trans h1)
  have h1 := hlater.trans h1
  have hwritten : (exec env (.writeBytes data) w1).2 = { w1 with files := (writePart env w.files data).2 } := by
    rw [← h1.files]
    rfl
  simp only [ensures_op (o := .writeBytes data), hwritten]
  refine ensures_appendAndCollect (fun w2 happends => ?_) fun e => ⟨data, h1.db, Or.inr rfl, ?_⟩
  · exact ⟨data, w1, h1, happends.later later_now⟩
  · show w.clock ≤ w1.clock + 2
    have hclock := h1.clock
    omega

theorem appends_prepared {key : ManifestKey} {w1 : World} {n : Nat} {data : Bytes} (h1 : Later w w1) :
    Prepared env (.append key (partRef n (writeResult env data))) w { w1 with files := (writePart env w.files data).2 } := by
  refine ⟨h1.db, Or.inr ⟨data, rfl, ?_⟩, h1.clock, fun m e => ?_⟩
  · exact List.mem_singleton_self _
  · cases e

variable (henv : env.Sane) (h : Steady env w .start .start)
include henv h

theorem putObject_does {bucket key : Str} {headers : HeaderMap} {body : Bytes} (hwell : (Request.putObject bucket key headers body).WellFormed) :
    Does env w (.putObject bucket key headers body) (run env (putObject env bucket key headers body) w).1
      (run env (putObject env bucket key headers body) w).2 := by
  obtain ⟨hb, hk⟩ := hwell.object rfl
  refine does (r := .putObject bucket key headers body) (ensures_putObject bucket key headers body) (fun resp w' _ hok => ?_)
    fun e w' _ hrefused => ⟨body, hrefused⟩
  obtain ⟨m, w1, hready, hputs⟩ := hok
  obtain ⟨cfg, headerLock, lock, tags, checksum, n, hcfg, -, -, -, hread, hn, rfl⟩ := hready.manifest
  refine ⟨.put _, w1, ⟨hready.db, Or.inr ⟨body, hready.files, List.mem_singleton_self _⟩, hready.clock, fun m e => ?_⟩, ?_, hputs⟩
  · cases e
    exact ⟨n, hn, rfl⟩
  · exact .put _ _ (decide_eq_true ⟨rfl, rfl⟩) (versionIdFor_new henv h hb hk cfg.versioning)

theorem copyObject_does {bucket key : Str} {source : CopySource} {headers : HeaderMap}
    (hwell : (Request.copyObject bucket key source headers).WellFormed) :
    Does env w (.copyObject bucket key source headers) (run env (copyObject env bucket key source headers) w).1
      (run env (copyObject env bucket key source headers) w).2 := by
  obtain ⟨hb, hk⟩ := hwell.object rfl
  refine does (r := .copyObject bucket key source headers) (ensures_copyObject bucket key source headers) (fun resp w' _ hok => ?_)
    fun e w' hrun hrefused => ⟨[], Untouched.refused ⟨hrefused.1, hrefused.2⟩ (clock_le_of_run hrun)⟩
  obtain ⟨cfg, src, n, w1, hcfg, -, hready, hputs⟩ := hok
  refine ⟨.put _, w1, hready.prepared rfl, ?_, hputs⟩
  exact .put _ _ (decide_eq_true ⟨rfl, rfl⟩) (versionIdFor_new henv h hb hk cfg.versioning)

theorem createMultipartUpload_does {bucket key : Str} {headers : HeaderMap}
    (hwell : (Request.createMultipartUpload bucket key headers).WellFormed) :
    Does env w (.createMultipartUpload bucket key headers) (run env (createMultipartUpload bucket key headers) w).1
      (run env (createMultipartUpload bucket key headers) w).2 := by
  obtain ⟨hb, hk⟩ := hwell.object rfl
  refine does (r := .createMultipartUpload bucket key headers) (ensures_createMultipartUpload bucket key headers) (fun resp w' _ hok => ?_)
    fun e w' hrun hrefused => ⟨[], hrefused.1.refused (clock_le_of_run hrun)⟩
  obtain ⟨-, -, n, w1, hready, hputs⟩ := hok
  exact ⟨.put _, w1, hready.prepared rfl, .create _ _ rfl (drawn_is_new henv h.tidy hb hk), hputs⟩

theorem deleteObject_does {bucket key : Str} {versionId : Option Str} (hwell : (Request.deleteObject bucket key versionId).WellFormed) :
    Does env w (.deleteObject bucket key versionId) (run env (deleteObject bucket key versionId) w).1
      (run env (deleteObject bucket key versionId) w).2 := by
  obtain ⟨hb, hk⟩ := hwell.object rfl
  refine does (r := .deleteObject bucket key versionId) (ensures_deleteObject bucket key versionId) (fun resp w' _ hok => ?_)
    fun e w' hrun hrefused => ⟨[], hrefused.refused (clock_le_of_run hrun)⟩
  have hremoved : ∀ {id : Str} {removed : Bool} {w1 : World}, id = versionId.getD nullVersionId → Later w w1 →
      Removes ⟨bucket, key, id⟩ w1 removed w' → ∃ c w1, Prepared env c w w1 ∧ (Request.deleteObject bucket key versionId).Plans w c ∧
        c.Makes env w1 w' := by
    intro id removed w1 hid h1 hr
    subst hid
    refine ⟨.remove _, w1, ⟨h1.db, Or.inl h1.files, h1.clock, fun m e => by cases e⟩, .delete bucket key versionId, removed, hr⟩
  obtain ⟨cfg, hcfg, hend⟩ := hok
  cases versionId with
  | some id =>
    obtain ⟨removed, w1, h1, hr⟩ := hend
    exact hremoved rfl h1 hr
  | none =>
    simp only at hend
    split at hend
    · obtain ⟨removed, w1, h1, hr⟩ := hend
      exact hremoved rfl h1 hr
    · obtain ⟨n, w1, hready, hputs⟩ := hend
      refine ⟨.put _, w1, hready.prepared rfl, ?_, hputs⟩
      exact .put _ _ (decide_eq_true ⟨rfl, rfl⟩) (versionIdFor_new henv h hb hk cfg.versioning)

omit henv h in
theorem uploadPart_does (bucket key id : Str) (n : Nat) (headers : HeaderMap) (body : Bytes) :
    Does env w (.uploadPart bucket key id n headers body) (run env (uploadPart env bucket key id n headers body) w).1
      (run env (uploadPart env bucket key id n headers body) w).2 :=
  does (r := .uploadPart bucket key id n headers body) (ensures_uploadPart bucket key id n headers body)
    (fun _ _ _ happends => ⟨.append _ _, _, appends_prepared (.refl w), .append _ _ _ rfl, happends⟩)
    fun _ _ _ hrefused => ⟨body, hrefused⟩

omit henv h in
theorem uploadPartCopy_does (bucket key id : Str) (n : Nat) (source : CopySource) (headers : HeaderMap) :
    Does env w (.uploadPartCopy bucket key id n source headers) (run env (uploadPartCopy env bucket key id n source headers) w).1
      (run env (uploadPartCopy env bucket key id n source headers) w).2 := by
  refine does (r := .uploadPartCopy bucket key id n source headers) (ensures_partCopied bucket key id n source headers)
    (fun _ _ _ hok => ?_) fun _ _ _ hrefused => hrefused
  obtain ⟨data, w1, h1, happends⟩ := hok
  exact ⟨.append _ _, _, appends_prepared h1, .append _ _ _ rfl, happends⟩

omit henv h in
theorem completeMultipartUpload_does (bucket key id : Str) (body : Bytes) :
    Does env w (.completeMultipartUpload bucket key id body) (run env (completeMultipartUpload env bucket key id body) w).1
      (run env (completeMultipartUpload env bucket key id body) w).2 := by
  refine does (r := .completeMultipartUpload bucket key id body) (ensures_completeMultipartUpload bucket key id body)
    (fun resp w' _ hok => ?_) fun e w' hrun hrefused => ⟨[], Untouched.refused ⟨hrefused.1, hrefused.2.1⟩ (clock_le_of_run hrun)⟩
  obtain ⟨up, selected, n, w1, -, h1, -, hn, hcommits⟩ := hok
  refine ⟨.commit _ _, w1, ⟨h1.db, Or.inl h1.files, h1.clock, fun m e => ?_⟩, .complete bucket key id body _ rfl, hcommits⟩
  cases e
  exact ⟨n, hn, rfl⟩

omit henv h in
theorem abortMultipartUpload_does (bucket key id : Str) :
    Does env w (.abortMultipartUpload bucket key id) (run env (abortMultipartUpload bucket key id) w).1
      (run env (abortMultipartUpload bucket key id) w).2 := by
  refine does (r := .abortMultipartUpload bucket key id) (ensures_abortMultipartUpload bucket key id)
    (fun resp w' _ hok => ?_) fun e w' hrun hrefused => ⟨[], hrefused.1.refused (clock_le_of_run hrun)⟩
  obtain ⟨up, w1, hup, hstate, h1, hr⟩ := hok
  exact ⟨.remove _, w1, ⟨h1.db, Or.inl h1.files, h1.clock, fun m e => by cases e⟩, .abort bucket key id up hup hstate, true, hr⟩

theorem request_does (hwell : r.WellFormed) : Does env w r (run env (r.handler env) w).1 (run env (r.handler env) w).2 := by
  cases r with
  | putObject bucket key headers body => exact putObject_does henv h hwell
  | copyObject bucket key source headers => exact copyObject_does henv h hwell
  | createMultipartUpload bucket key headers => exact createMultipartUpload_does henv h hwell
  | deleteObject bucket key versionId => exact deleteObject_does henv h hwell
  | uploadPart bucket key id n headers body => exact uploadPart_does bucket key id n headers body
  | uploadPartCopy bucket key id n source headers => exact uploadPartCopy_does bucket key id n source headers
  | completeMultipartUpload bucket key id body => exact completeMultipartUpload_does bucket key id body
  | abortMultipartUpload bucket key id => exact abortMultipartUpload_does bucket key id
  | _ => exact .idle (mild_idle rfl w)

end

/-! ## What a request leaves -/

section
variable {env : Env} {w w1 w' : World} {r : Request} {c : Change} {answer : Except Failure Response} {h : Hash}

theorem writePart_kept {files : Table Hash Bytes} {data bytes : Bytes} (hfile : files.get h = some bytes) :
    (writePart env files data).2.get h = some bytes := by
  rw [writePart_get, if_neg]
  · exact hfile
  · rw [hfile]
    exact fun hnew => by cases hnew.2

theorem Prepared.kept (hp : Prepared env c w w1) {bytes : Bytes} (hfile : w.files.get h = some bytes) : w1.files.get h = some bytes := by
  rcases hp.files with hfiles | ⟨data, hfiles, -⟩
  · rw [hfiles]
    exact hfile
  · rw [hfiles]
    exact writePart_kept hfile

/-- What is not counted was not written. -/
theorem Prepared.uncounted (hp : Prepared env c w w1) (hcount : h ∉ c.counts.map (·.hash)) : w1.files.get h = w.files.get h := by
  rcases hp.files with hfiles | ⟨data, hfiles, hmem⟩
  · rw [hfiles]
  · have hne : h ≠ env.blake3 data := by
      intro e
      subst e
      exact hcount hmem
    rw [hfiles, writePart_get, if_neg fun hnew => hne hnew.1]

theorem Does.clock (hd : Does env w r answer w') : w.clock ≤ w'.clock := by
  cases hd with
  | idle hidle => exact hidle.clock
  | refused data e _ hrefused => exact hrefused.clock
  | changed c w1 hp _ hmakes =>
    obtain ⟨freed, db', -, hgc⟩ := hmakes.settles
    have hclock := hgc.clock
    have hstart := hp.clock
    simp only at hclock
    omega

/-- No row counts 0 between requests. -/
theorem Does.cleared (hd : Does env w r answer w') (hcleared : Cleared w.db.parts) : Cleared w'.db.parts := by
  cases hd with
  | idle hidle =>
    rw [hidle.parts]
    exact hcleared
  | refused data e _ hrefused =>
    rw [hrefused.db]
    exact hcleared
  | changed c w1 hp _ hmakes =>
    rw [← hp.db] at hcleared
    exact hmakes.cleared hcleared

/-- The file of a row that is left stays. -/
theorem Does.file (hd : Does env w r answer w') {bytes : Bytes} (hrow : w'.db.parts.get h ≠ none) (hfile : w.files.get h = some bytes) :
    w'.files.get h = some bytes := by
  cases hd with
  | idle hidle =>
    rw [hidle.files]
    exact hfile
  | refused data e _ hrefused =>
    rcases hrefused.files with hfiles | hfiles
    · rw [hfiles]
      exact hfile
    · rw [hfiles]
      exact writePart_kept hfile
  | changed c w1 hp _ hmakes =>
    rw [hmakes.file hrow]
    exact hp.kept hfile

/-- A file that has no row had none before, and if it is new, then the request was refused. -/
theorem Does.stray (hd : Does env w r answer w') (hfile : w'.files.get h ≠ none) (hrow : w'.db.parts.get h = none) :
    w.db.parts.get h = none ∧ (w.files.get h = none → ∃ e, answer = .error e) := by
  cases hd with
  | idle hidle =>
    rw [hidle.files] at hfile
    rw [hidle.parts] at hrow
    exact ⟨hrow, fun hnone => absurd hnone hfile⟩
  | refused data e he hrefused =>
    rw [hrefused.db] at hrow
    exact ⟨hrow, fun _ => ⟨e, he⟩⟩
  | changed c w1 hp _ hmakes =>
    obtain ⟨hfile1, hrow1, hcount⟩ := hmakes.stray hfile hrow
    rw [hp.uncounted hcount] at hfile1
    rw [hp.db] at hrow1
    exact ⟨hrow1, fun hnone => absurd hnone hfile1⟩

/-! ### Times -/

/-- Every row was modified before. -/
def Timed (env : Env) (w : World) : Prop := ∀ slot m, w.db.objects.get slot = some m → ∃ n < w.clock, m.lastModified = env.now n

theorem Idle.row (hi : Idle w w') {slot : Bytes} {m : Manifest} (hm : w'.db.objects.get slot = some m) :
    ∃ m0, w.db.objects.get slot = some m0 ∧ m0.content = m.content := by
  have hrow := hi.rows slot
  rw [hm, Option.map_some] at hrow
  exact Option.map_eq_some_iff.mp hrow.symm

theorem Change.Makes.timed (hmakes : c.Makes env w w') (htimed : Timed env w)
    (hstores : ∀ m, c.stores = some m → ∃ n < w.clock, m.lastModified = env.now n) : Timed env w' := by
  have hclock : w.clock + 2 ≤ w'.clock := by
    obtain ⟨freed, db', -, hgc⟩ := hmakes.settles
    exact hgc.clock
  have hlater : ∀ {t : Time}, (∃ n < w.clock, t = env.now n) → ∃ n < w'.clock, t = env.now n := by
    intro t ht
    obtain ⟨n, hn, rfl⟩ := ht
    exact ⟨n, by omega, rfl⟩
  have hinsert : ∀ {k : Bytes} {m0 : Manifest}, (∃ n < w'.clock, m0.lastModified = env.now n) →
      ∀ slot m, (w.db.objects.insert k m0).get slot = some m → ∃ n < w'.clock, m.lastModified = env.now n := by
    intro k m0 hm0 slot m hm
    rw [Table.get_insert] at hm
    split at hm
    · cases hm
      exact hm0
    · exact hlater (htimed slot m hm)
  intro slot m hm
  cases c with
  | put m0 =>
    rw [(Puts.objects hmakes).1] at hm
    exact hinsert (hlater (hstores m0 rfl)) slot m hm
  | remove key =>
    obtain ⟨removed, hremoves⟩ := hmakes
    rw [hremoves.objects.1, Table.get_erase] at hm
    split at hm
    · cases hm
    · exact hlater (htimed slot m hm)
  | append key part =>
    obtain ⟨effect, db', happend, hgc⟩ := hmakes
    obtain ⟨m0, parts, -, -, -, rfl⟩ := append_ok happend
    rw [hgc.objects] at hm
    refine hinsert ⟨w.clock + 1, ?_, rfl⟩ slot m hm
    omega
  | commit upload m0 =>
    rw [(Commits.objects hmakes).1, Table.get_erase] at hm
    split at hm
    · cases hm
    · exact hinsert (hlater (hstores m0 rfl)) slot m hm

theorem Does.timed (hd : Does env w r answer w') (htimed : Timed env w) : Timed env w' := by
  cases hd with
  | idle hidle =>
    intro slot m hm
    obtain ⟨m0, hm0, hcontent⟩ := hidle.row hm
    obtain ⟨n, hn, htime⟩ := htimed slot m0 hm0
    have hsame : m0.content.lastModified = m.content.lastModified := by rw [hcontent]
    exact ⟨n, lt_of_lt_of_le hn hidle.clock, hsame.symm.trans htime⟩
  | refused data e _ hrefused =>
    intro slot m hm
    rw [hrefused.db] at hm
    obtain ⟨n, hn, htime⟩ := htimed slot m hm
    exact ⟨n, lt_of_lt_of_le hn hrefused.clock, htime⟩
  | changed c w1 hp _ hmakes =>
    refine hmakes.timed (fun slot m hm => ?_) hp.times
    rw [hp.db] at hm
    obtain ⟨n, hn, htime⟩ := htimed slot m hm
    exact ⟨n, lt_of_lt_of_le hn hp.clock, htime⟩

/-! ### Rows -/

/-- What a request makes of the row of a key. -/
inductive Touches (r : Request) (key : ManifestKey) (before after : Option Manifest) : Prop
  | keeps : after.map Manifest.content = before.map Manifest.content → Touches r key before after
  | writes : r.changes key.bucket key.key = true → key.versionId = nullVersionId ∨ before = none ∨ r.target = some key →
      Touches r key before after
  | uploads : (∀ m, before = some m → m.state ≠ .committed) → (∀ m, after = some m → m.state ≠ .committed) →
      before = none ∨ r.target = some key → Touches r key before after
  | appends (m : Manifest) : before = some m → m.state = .committed → r.target = some key → Touches r key before after

theorem Request.Plans.touches (hplans : r.Plans w c) (hmakes : c.Makes env w w') {key : ManifestKey} (hkey : key ∈ c.keys) :
    Touches r key (w.db.objects.get key.encode) (w'.db.objects.get key.encode) := by
  cases hplans with
  | put r m hr hid =>
    obtain rfl := List.mem_singleton.mp hkey
    exact .writes hr (hid.imp_right Or.inl)
  | create r m hstate hnone =>
    obtain rfl := List.mem_singleton.mp hkey
    refine .uploads (fun m' hm' => ?_) (fun m' hm' => ?_) (Or.inl hnone)
    · rw [hnone] at hm'
      cases hm'
    · rw [(Puts.objects hmakes).1, Table.get_insert_self] at hm'
      cases hm'
      rw [hstate]
      decide
  | delete bucket key versionId =>
    obtain rfl := List.mem_singleton.mp hkey
    refine .writes (decide_eq_true ⟨rfl, rfl⟩) ?_
    cases versionId with
    | none => exact Or.inl rfl
    | some id => exact Or.inr (Or.inr rfl)
  | abort bucket key id up hup hstate =>
    obtain rfl := List.mem_singleton.mp hkey
    refine .uploads (fun m' hm' => ?_) (fun m' hm' => ?_) (Or.inr rfl)
    · rw [hup] at hm'
      cases hm'
      rw [hstate]
      decide
    · obtain ⟨removed, hremoves⟩ := hmakes
      rw [hremoves.objects.1, Table.get_erase_self] at hm'
      cases hm'
  | append r key part htarget =>
    obtain rfl := List.mem_singleton.mp hkey
    obtain ⟨effect, db', happend, hgc⟩ := hmakes
    obtain ⟨m, parts, hm, -, -, rfl⟩ := append_ok happend
    by_cases hstate : m.state = .committed
    · exact .appends m hm hstate htarget
    · refine .uploads (fun m' hm' => ?_) (fun m' hm' => ?_) (Or.inr htarget)
      · rw [hm] at hm'
        cases hm'
        exact hstate
      · rw [hgc.objects] at hm'
        have hm' := (Table.get_insert_self ..).symm.trans hm'
        cases hm'
        exact hstate
  | complete bucket key id body m hm =>
    rcases List.mem_cons.mp hkey with rfl | hkey
    · rw [hm]
      exact .writes (decide_eq_true ⟨rfl, rfl⟩) (Or.inl rfl)
    · obtain rfl := List.mem_singleton.mp hkey
      exact .writes (decide_eq_true ⟨rfl, rfl⟩) (Or.inr (Or.inr rfl))

theorem Request.Plans.same (hplans : r.Plans w c) (hdb : w1.db = w.db) : r.Plans w1 c := by
  cases hplans with
  | put r m hr hid => exact .put r m hr (hdb.symm ▸ hid)
  | create r m hstate hnone => exact .create r m hstate (hdb.symm ▸ hnone)
  | delete => exact .delete ..
  | abort bucket key id up hup hstate => exact .abort bucket key id up (hdb.symm ▸ hup) hstate
  | append r key part htarget => exact .append r key part htarget
  | complete bucket key id body m hm => exact .complete bucket key id body m hm

theorem Does.touches (hd : Does env w r answer w') {key : ManifestKey} (hclear : key.NulFree) :
    Touches r key (w.db.objects.get key.encode) (w'.db.objects.get key.encode) := by
  cases hd with
  | idle hidle => exact .keeps (hidle.rows _)
  | refused data e _ hrefused =>
    rw [hrefused.db]
    exact .keeps rfl
  | changed c w1 hp hplans hmakes =>
    by_cases hkey : ∃ k ∈ c.keys, k.encode = key.encode
    · obtain ⟨k, hk, he⟩ := hkey
      obtain rfl := eq_of_encode hclear he
      have htouches := (hplans.same hp.db).touches hmakes hk
      rw [hp.db] at htouches
      exact htouches
    · refine .keeps ?_
      rw [hmakes.row fun k hk he => hkey ⟨k, hk, he.symm⟩, hp.db]

/-- The row of an upload is only touched under its own id. -/
theorem Touches.upload {key : ManifestKey} {before after : Option Manifest} (ht : Touches r key before after) {m : Manifest}
    (hm : before = some m) (hstate : m.state ≠ .committed) (hid : key.versionId ≠ nullVersionId) (htarget : r.target ≠ some key) :
    after.map Manifest.content = some m.content := by
  subst hm
  have hbusy : ¬ (some m = none ∨ r.target = some key) := by
    intro h
    rcases h with h | h
    · cases h
    · exact htarget h
  cases ht with
  | keeps he => exact he
  | writes _ h =>
    rcases h with h | h
    · exact absurd h hid
    · exact absurd h hbusy
  | uploads _ _ h => exact absurd h hbusy
  | appends m' hm' hs =>
    cases hm'
    exact absurd hs hstate

/-- The request writes or deletes versions of the key, or names one where it should name an upload. -/
def Request.Rewrites (db : Db) (bucket key : Str) (r : Request) : Prop :=
  r.changes bucket key = true ∨
    ∃ id m, r.target = some ⟨bucket, key, id⟩ ∧ db.objects.get (ManifestKey.mk bucket key id).encode = some m ∧ m.state = .committed

/-- The committed rows of the key stay otherwise. -/
theorem Touches.committed {db : Db} {bucket key id : Str} {after : Option Manifest} (hr : ¬ r.Rewrites db bucket key)
    (ht : Touches r ⟨bucket, key, id⟩ (db.objects.get (ManifestKey.mk bucket key id).encode) after) :
    (after.map Manifest.content).filter (fun m => m.state = .committed) =
      ((db.objects.get (ManifestKey.mk bucket key id).encode).map Manifest.content).filter fun m => m.state = .committed := by
  have hnone : ∀ {o : Option Manifest}, (∀ m, o = some m → m.state ≠ .committed) →
      (o.map Manifest.content).filter (fun m => m.state = .committed) = none := by
    intro o ho
    refine Option.filter_eq_none_iff.mpr fun m hm hs => ?_
    obtain ⟨m0, hm0, rfl⟩ := Option.map_eq_some_iff.mp hm
    exact ho m0 hm0 (of_decide_eq_true hs)
  cases ht with
  | keeps he => rw [he]
  | writes h => exact absurd (Or.inl h) hr
  | uploads hb ha => rw [hnone hb, hnone ha]
  | appends m hm hs htarget => exact absurd (Or.inr ⟨id, m, htarget, hm, hs⟩) hr

end

end S3lite
