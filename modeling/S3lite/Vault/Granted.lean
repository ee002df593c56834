/-
  S3lite.Vault.Granted — runs of the basic requests: which of them the vault grants.

  `Vault.Serves` leaves it to the server to refuse a PUT or a copy. Of the basic requests the server
  refuses only what the vault does.
  - `Unlocked`: no bucket and no version has a lock, and no part is left marked.
  - `answers_basic`: so a write succeeds exactly when the bucket, the source and the headers allow it,
    and a GET has the bytes of the version.
  - `versions_refined`: in every run in which no count saturates.
  - `a_saturated_count_loses_a_version`: of 2^32 objects of one content, the last is not read back
    once the others are deleted.
-/
import S3lite.Vault.Basic

namespace S3lite

open Handler

namespace Vault

/-- The answer to a basic request. A GET sends all bytes of the version, or says that there are none;
    the others succeed exactly when they are granted. -/
def Answers (env : Env) (s : Vault) (answer : Except Failure Response) : Request → Prop
  | .createBucket bucket _ => Succeeds answer ↔ s.versioning bucket = none
  | .putBucketVersioning bucket body => Succeeds answer ↔ s.versioning bucket ≠ none ∧ ∃ v, Configurable env bucket body v
  | .putObject bucket _ headers body => Succeeds answer ↔ s.versioning bucket ≠ none ∧ Accepts env headers body
  | .copyObject bucket _ source _ => Succeeds answer ↔
      s.versioning bucket ≠ none ∧ s.content source.bucket source.key source.versionId ≠ none
  | .deleteObject bucket _ _ => Succeeds answer ↔ s.versioning bucket ≠ none
  | .getObject bucket key versionId _ =>
      match (s.history bucket key).look versionId with
      | some ⟨_, some c⟩ => ∃ resp, answer = .ok resp ∧ SendsWhole c resp
      | some ⟨_, none⟩ => Fails [if versionId = none then .noSuchKey else .invalidRequest] answer
      | none => Fails [if s.versioning bucket = none then .noSuchBucket else .noSuchKey] answer
  | _ => False

/-- Basic requests and their answers, one after the other. -/
inductive Obeys (env : Env) : Vault → List (Request × Except Failure Response) → Vault → Prop
  | nil (s : Vault) : Obeys env s [] s
  | cons {s s1 s' : Vault} {r : Request} {answer : Except Failure Response} {rest : List (Request × Except Failure Response)} :
      s.Serves env r answer s1 → s.Answers env answer r → Obeys env s1 rest s' → Obeys env s ((r, answer) :: rest) s'

end Vault

/-! ## No locks and no marks -/

structure Unlocked (w : World) : Prop where
  buckets : ∀ name cfg, w.db.buckets.get name = some cfg → cfg.objectLock = none
  rows : ∀ slot m, w.db.objects.get slot = some m → m.objectLock = none
  live : Live w.db.parts

section
variable {env : Env} {w w' : World}

theorem Live.unmarked {parts : Parts} (h : Live parts) (hash : Hash) : ¬ Marked parts hash := by
  intro hm
  obtain ⟨e, he, hs⟩ := hm
  rw [h hash e he] at hs
  cases hs

/-- A collection leaves no mark. -/
theorem Handler.Collected.live {freed : List Hash} (h : Collected freed w w') (hlive : Live w.db.parts) : Live w'.db.parts := by
  intro x e he
  by_cases hgone : x ∈ freed ∧ Orphan w.db.parts x
  · rw [(h.gone x hgone.1 hgone.2).1] at he
    cases he
  · have hkept := h.kept x fun hm ho => hgone ⟨hm, ho⟩
    rw [hkept.1] at he
    exact hlive x e he

namespace Unlocked

theorem empty : Unlocked .empty := ⟨fun _ _ h => (by cases h), fun _ _ h => (by cases h), fun _ _ h => (by cases h)⟩

theorem same (h : Unlocked w) (hdb : w'.db = w.db) : Unlocked w' := by
  obtain ⟨hbuckets, hrows, hlive⟩ := h
  rw [← hdb] at hbuckets hrows hlive
  exact ⟨hbuckets, hrows, hlive⟩

theorem configured (h : Unlocked w) {bucket : Str} {cfg : BucketConfig} (hcfg : cfg.objectLock = none)
    (hbuckets : w'.db.buckets = w.db.buckets.insert bucket cfg) (hobjects : w'.db.objects = w.db.objects) (hparts : w'.db.parts = w.db.parts) :
    Unlocked w' := by
  refine ⟨fun name cfg' hname => ?_, fun slot m hm => ?_, ?_⟩
  · rw [hbuckets, Table.get_insert] at hname
    split at hname
    · cases hname
      exact hcfg
    · exact h.buckets name cfg' hname
  · rw [hobjects] at hm
    exact h.rows slot m hm
  · rw [hparts]
    exact h.live

theorem puts (h : Unlocked w) {m : Manifest} (hm : m.objectLock = none) (hputs : Puts env m w w') : Unlocked w' := by
  obtain ⟨hobjects, hbuckets⟩ := hputs.objects
  obtain ⟨effect, db', hput, hgc⟩ := hputs
  obtain ⟨effect', db'', hput', hlive⟩ := put_live (env.now w.clock) m h.live
  rw [hput] at hput'
  cases hput'
  refine ⟨fun name cfg hname => ?_, fun slot m' hm' => ?_, hgc.live hlive⟩
  · rw [hbuckets] at hname
    exact h.buckets name cfg hname
  · rw [hobjects, Table.get_insert] at hm'
    split at hm'
    · cases hm'
      exact hm
    · exact h.rows slot m' hm'

theorem removes (h : Unlocked w) {key : ManifestKey} {removed : Bool} (hremoves : Removes key w removed w') : Unlocked w' := by
  obtain ⟨hobjects, hbuckets⟩ := hremoves.objects
  refine ⟨fun name cfg hname => ?_, fun slot m hm => ?_, ?_⟩
  · rw [hbuckets] at hname
    exact h.buckets name cfg hname
  · rw [hobjects, Table.get_erase] at hm
    split at hm
    · cases hm
    · exact h.rows slot m hm
  · unfold Removes at hremoves
    split at hremoves
    · obtain ⟨-, rfl⟩ := hremoves
      exact h.live
    · obtain ⟨-, effect, db', hdelete, hgc⟩ := hremoves
      obtain ⟨m, -, -, rfl⟩ := delete_ok hdelete
      exact hgc.live (decAll_live h.live)

end Unlocked

/-- Whether it succeeds or not. -/
theorem ensures_end {α : Type} {x : Handler α} {P : World → Prop} (h : Ensures env x w (fun _ => P) fun _ => P) : P (run env x w).2 := by
  unfold Ensures at h
  split at h
  · rename_i hrun
    rw [hrun]
    exact h
  · rename_i hrun
    rw [hrun]
    exact h

namespace Unlocked

section
variable (h : Unlocked w)
include h

theorem createBucket {bucket : Str} {headers : HeaderMap} (hr : headers.get (str "x-amz-bucket-object-lock-enabled") = none) :
    Unlocked (run env (createBucket env bucket headers) w).2 := by
  refine ensures_end ((ensures_createBucket bucket headers).mono (fun _ w' hok => ?_) fun _ w' hrefused => h.same hrefused.2.db)
  obtain ⟨-, rfl⟩ := hok
  have hlock : (newBucketConfig env headers (env.now w.clock)).objectLock = none := by
    unfold newBucketConfig
    rw [headerString_none hr]
    rfl
  exact h.configured hlock rfl rfl rfl

theorem putBucketVersioning {bucket : Str} {body : Bytes} : Unlocked (run env (putBucketVersioning env bucket body) w).2 := by
  refine ensures_end ((ensures_putBucketVersioning bucket body).mono (fun _ w' hok => ?_) fun _ w' hrefused => h.same hrefused.2.db)
  obtain ⟨v, cfg, -, hcfg, rfl⟩ := hok
  have hlock : ({ cfg with versioning := v } : BucketConfig).objectLock = none := h.buckets bucket cfg hcfg
  exact h.configured hlock rfl rfl rfl

theorem putObject {bucket key : Str} {headers : HeaderMap} (hfree : LockFree headers) {body : Bytes} :
    Unlocked (run env (putObject env bucket key headers body) w).2 := by
  refine ensures_end ((ensures_putObject bucket key headers body).mono (fun _ w' hok => ?_) fun _ w' hrefused => h.same hrefused.db)
  obtain ⟨m, w1, hready, hputs⟩ := hok
  refine (h.same hready.db).puts ?_ hputs
  obtain ⟨cfg, headerLock, lock, tags, checksum, n, hcfg, -, hheader, hchosen, -, -, rfl⟩ := hready.manifest
  rw [parseLockHeaders_free hfree] at hheader
  cases hheader
  -- the bucket has no default retention
  obtain ⟨n', -, hlock⟩ := hchosen
  rw [h.buckets bucket cfg hcfg] at hlock
  exact hlock

theorem copyObject {bucket key : Str} {source : CopySource} {headers : HeaderMap} :
    Unlocked (run env (copyObject env bucket key source headers) w).2 := by
  refine ensures_end ((ensures_copyObject bucket key source headers).mono (fun _ w' hok => ?_) fun _ w' hrefused => h.same hrefused.1)
  obtain ⟨cfg, src, n, w1, -, -, hready, hputs⟩ := hok
  exact (h.same hready.db).puts rfl hputs

theorem deleteObject {bucket key : Str} {versionId : Option Str} : Unlocked (run env (deleteObject bucket key versionId) w).2 := by
  refine ensures_end ((ensures_deleteObject bucket key versionId).mono (fun _ w' hok => ?_) fun _ w' hrefused => h.same hrefused.db)
  obtain ⟨cfg, -, hend⟩ := hok
  cases versionId with
  | some id =>
    obtain ⟨removed, w1, h1, hremoves⟩ := hend
    exact (h.same h1.db).removes hremoves
  | none =>
    simp only at hend
    split at hend
    · obtain ⟨removed, w1, h1, hremoves⟩ := hend
      exact (h.same h1.db).removes hremoves
    · obtain ⟨n, w1, hready, hputs⟩ := hend
      exact (h.same hready.db).puts rfl hputs

theorem getObject {bucket key : Str} {versionId : Option Str} {headers : HeaderMap} :
    Unlocked (run env (getOrHeadObject env bucket key versionId headers false) w).2 := by
  have hreads : Performs (fun o => o.reads = true) (getOrHeadObject env bucket key versionId headers false) :=
    performs_getOrHeadObject readsAmong_self.looks (fun _ => rfl) _ _ _ _ _
  exact performs_run hreads (fun w' _ hi hop => hi.same (exec_reads hop w').1) h

theorem request {r : Request} (hr : r.Basic) : Unlocked (run env (r.handler env) w).2 := by
  cases r with
  | createBucket bucket headers => exact h.createBucket hr
  | putBucketVersioning bucket body => exact h.putBucketVersioning
  | putObject bucket key headers body => exact h.putObject hr.1
  | copyObject bucket key source headers => exact h.copyObject
  | deleteObject bucket key versionId => exact h.deleteObject
  | getObject bucket key versionId headers => exact h.getObject
  | _ => exact hr.elim

end

end Unlocked

/-! ## What succeeds -/

/-- The last steps of a handler that stores a manifest, where no part is marked. -/
theorem ensures_putLive {w : World} {m : Manifest} {f : Unit → Handler Response} (hlive : Live w.db.parts) {E : Failure → World → Prop}
    (hf : ∀ w', Ensures env (f ()) w' (fun _ _ => True) E) :
    Ensures env (mapErr mapMetaErr (exec env (.metaOp (.putManifest m)) w).1) (exec env (.metaOp (.putManifest m)) w).2
      (fun effect w => Ensures env (gcFreedParts effect.freedParts) w (fun a w => Ensures env (f a) w (fun _ _ => True) E) E) E := by
  rw [ensures_mapErr]
  refine ⟨fun effect _ => (ensures_gcFreedParts effect.freedParts).mono (fun _ w' _ => hf w') fun _ _ h => h, fun e he => ?_⟩
  obtain ⟨effect, db', hput, -⟩ := put_live (env.now w.clock) m hlive
  obtain ⟨herror, -⟩ := commit_error_inv he
  rw [hput] at herror
  cases herror

variable {bucket key : Str}

theorem ensures_copyGranted {source : CopySource} {headers : HeaderMap} {cfg : BucketConfig} (hcfg : w.db.buckets.get bucket = some cfg)
    {src : Manifest} (hsrc : IsSource w.db source src) (hetag : (src.etag env.md5 env.debug).isSome = true) (hlive : Live w.db.parts) :
    Ensures env (copyObject env bucket key source headers) w (fun _ _ => True) fun _ _ => False := by
  simp only [copyObject, ensures_bind, ensures_op, ensures_orFail]
  refine ⟨fun cfg' _ => ensures_resolveSource (fun src' hsrc' => ?_) fun hnone _ => hnone src hsrc, fun hnone => ?_⟩
  · obtain rfl := hsrc.unique hsrc'
    obtain ⟨etag, hetag⟩ := Option.isSome_iff_exists.mp hetag
    rw [ensures_nextVersionId]
    have hcopy : ∀ key' now, etagOf env (copyManifest src key' headers now) = ok etag := by
      intro key' now
      have hsame : (copyManifest src key' headers now).etag env.md5 env.debug = some etag := hetag
      unfold etagOf
      rw [hsame]
    rw [hcopy, ensures_ok]
    refine ensures_putLive ?_ fun _ => ?_
    · exact hlive
    · trivial
  · have hnone : w.db.buckets.get bucket = none := hnone
    rw [hcfg] at hnone
    cases hnone

theorem ensures_deleteGranted {versionId : Option Str} {cfg : BucketConfig} (hcfg : w.db.buckets.get bucket = some cfg) (h : Unlocked w) :
    Ensures env (deleteObject bucket key versionId) w (fun _ _ => True) fun _ _ => False := by
  have hunlocked : ∀ target : ManifestKey, checkNotLocked bucket key
      (exec env (.metaOp (.getManifest target)) { w with clock := w.clock + 2 }).1 = ok () := by
    intro target
    refine checkNotLocked_free (Option.bind_eq_none_iff.mpr fun m hm => ?_)
    exact h.rows target.encode m hm
  simp only [deleteObject, ensures_bind, ensures_requireBucket]
  refine ⟨fun cfg' _ => ?_, fun hnone => by rw [hcfg] at hnone; cases hnone⟩
  cases versionId with
  | some id =>
    simp only [deleteSpecificVersion, ensures_bind, ensures_op, hunlocked, ensures_ok]
    exact ensures_removeManifest fun _ _ _ => trivial
  | none =>
    simp only
    split
    · simp only [ensures_bind, ensures_op, hunlocked, ensures_ok]
      exact ensures_removeManifest fun _ _ _ => trivial
    · unfold insertDeleteMarker
      simp only [ensures_bind, ensures_nextVersionId, ensures_op]
      refine ensures_putLive ?_ fun _ => ?_
      · exact h.live
      · trivial
    · unfold insertDeleteMarker
      simp only [ensures_bind, ensures_nextVersionId, ensures_op]
      refine ensures_putLive ?_ fun _ => ?_
      · exact h.live
      · trivial

end

/-! ## The answers -/

section
variable {env : Env} {w : World} {s : Vault} {bucket key : Str}

theorem Shows.missing_iff (hs : Shows env w s) (bucket : Str) : s.versioning bucket = none ↔ w.db.buckets.get bucket = none := by
  rw [hs.versioning, Option.map_eq_none_iff]

/-- What the vault has can be copied. -/
theorem Shows.source (hs : Shows env w s) (hdb : WellKeyed w.db) {source : CopySource} {c : Bytes}
    (hc : s.content source.bucket source.key source.versionId = some c) : ∃ src, IsSource w.db source src ∧ objectBytes w src = c := by
  unfold Vault.content at hc
  rw [hs.look hdb] at hc
  obtain ⟨v, hv, hcontent⟩ := Option.bind_eq_some_iff.mp hc
  obtain ⟨src, hfound, rfl⟩ := Option.map_eq_some_iff.mp hv
  obtain ⟨hfound, hstate⟩ := Option.filter_eq_some_iff.mp hfound
  simp only [shown] at hcontent
  split at hcontent
  · rename_i hkind
    exact ⟨src, ⟨hfound, of_decide_eq_true hstate, hkind⟩, Option.some.inj hcontent⟩
  · cases hcontent

/-- A request that is refused for want of its bucket, and decided by a condition otherwise. -/
theorem answers_iff {r : Request} {p : Prop} (hs : Shows env w s)
    (hmissing : w.db.buckets.get bucket = none → Ensures env (r.handler env) w (fun _ _ => False) fun _ _ => True)
    (hfound : ∀ cfg, w.db.buckets.get bucket = some cfg → Ensures env (r.handler env) w (fun _ _ => p) fun _ _ => ¬ p) :
    Vault.Succeeds (run env (r.handler env) w).1 ↔ s.versioning bucket ≠ none ∧ p := by
  rw [ne_eq, hs.missing_iff]
  rcases Option.eq_none_or_eq_some (w.db.buckets.get bucket) with hcfg | ⟨cfg, hcfg⟩
  · exact succeeds_iff (hmissing hcfg) (fun _ _ h => h.elim) fun _ _ _ h => h.1 hcfg
  · rw [hcfg]
    exact succeeds_iff (hfound cfg hcfg) (fun _ _ h => ⟨Option.some_ne_none cfg, h⟩) fun _ _ h hp => h hp.2

theorem answers_putObject (hs : Shows env w s) (hfree : Unlocked w) {headers : HeaderMap} {body : Bytes}
    (hr : (Request.putObject bucket key headers body).Basic) :
    s.Answers env (run env (putObject env bucket key headers body) w).1 (.putObject bucket key headers body) := by
  obtain ⟨hlock, hmatch, hnone, -⟩ := hr
  refine @answers_iff env w s bucket (.putObject bucket key headers body) _ hs (fun hcfg => ?_) fun cfg hcfg => ?_
  · refine (ensures_putObject bucket key headers body).mono (fun _ _ hok => ?_) fun _ _ _ => trivial
    obtain ⟨m, w1, hready, -⟩ := hok
    obtain ⟨cfg, -, -, -, -, -, hsome, -⟩ := hready.manifest
    rw [hcfg] at hsome
    cases hsome
  · exact ensures_putObject_accepts hcfg (hfree.buckets bucket cfg hcfg) hlock hmatch hnone (hfree.live.unmarked _)

theorem answers_copyObject (hs : Shows env w s) (hfree : Unlocked w) {g : Ghost} {gr : Ground} (hsteady : Steady env w g gr)
    (hstocked : Stocked env w g gr) {source : CopySource} {headers : HeaderMap} :
    s.Answers env (run env (copyObject env bucket key source headers) w).1 (.copyObject bucket key source headers) := by
  have hcopy := @ensures_copyObject env w bucket key source headers
  have hdb := hsteady.tidy.wellKeyed
  refine @answers_iff env w s bucket (.copyObject bucket key source headers) _ hs (fun hcfg => ?_) fun cfg hcfg => ?_
  · refine hcopy.mono (fun _ _ hok => ?_) fun _ _ _ => trivial
    obtain ⟨cfg, -, -, -, hsome, -⟩ := hok
    rw [hcfg] at hsome
    cases hsome
  · by_cases hsource : ∃ src, IsSource w.db source src
    · obtain ⟨src, hsrc⟩ := hsource
      obtain ⟨⟨slot, hslot⟩, -⟩ := hsteady.bucket_of_found hsrc.1
      have hetag := (hstocked.measured _ (Table.mem_rows.mpr hslot)).etag_isSome hsrc.2.1 hsrc.2.2
      refine (ensures_copyGranted hcfg hsrc hetag hfree.live).mono (fun _ _ _ => ?_) fun _ _ h => h.elim
      rw [hs.copied hdb hsrc]
      exact Option.some_ne_none _
    · refine hcopy.mono (fun _ _ hok => ?_) fun _ _ _ hcontent => ?_
      · obtain ⟨-, src, -, -, -, hsrc, -⟩ := hok
        exact absurd ⟨src, hsrc⟩ hsource
      · obtain ⟨c, hc⟩ := Option.ne_none_iff_exists'.mp hcontent
        obtain ⟨src, hsrc, -⟩ := hs.source hdb hc
        exact hsource ⟨src, hsrc⟩

theorem answers_deleteObject (hs : Shows env w s) (hfree : Unlocked w) {versionId : Option Str} :
    s.Answers env (run env (deleteObject bucket key versionId) w).1 (.deleteObject bucket key versionId) := by
  have hdelete := @ensures_deleteObject env w bucket key versionId
  have hiff := @answers_iff env w s bucket (.deleteObject bucket key versionId) True hs (fun hcfg => ?_) fun cfg hcfg => ?_
  · rw [and_true] at hiff
    exact hiff
  · refine hdelete.mono (fun _ _ hok => ?_) fun _ _ _ => trivial
    obtain ⟨cfg, hsome, -⟩ := hok
    rw [hcfg] at hsome
    cases hsome
  · exact (ensures_deleteGranted hcfg hfree).mono (fun _ _ h => h) fun _ _ h => h.elim

theorem answers_putBucketVersioning (hs : Shows env w s) {body : Bytes} :
    s.Answers env (run env (putBucketVersioning env bucket body) w).1 (.putBucketVersioning bucket body) := by
  have hput := @ensures_putBucketVersioning env w bucket body
  refine @answers_iff env w s bucket (.putBucketVersioning bucket body) _ hs (fun hcfg => ?_) fun cfg hcfg => ?_
  · refine hput.mono (fun _ _ hok => ?_) fun _ _ _ => trivial
    obtain ⟨v, cfg, -, hsome, -⟩ := hok
    rw [hcfg] at hsome
    cases hsome
  · refine hput.mono (fun _ _ hok => ?_) fun _ _ hrefused hv => ?_
    · obtain ⟨v, cfg, hv, -⟩ := hok
      exact ⟨v, hv⟩
    · obtain ⟨v, hv⟩ := hv
      rcases hrefused.1 with hnone | hnone
      · rw [hcfg] at hnone
        cases hnone
      · exact hnone v hv

theorem answers_getObject (hs : Shows env w s) {g : Ghost} {gr : Ground} (hsteady : Steady env w g gr) (hstocked : Stocked env w g gr)
    {versionId : Option Str} {headers : HeaderMap} (hr : (Request.getObject bucket key versionId headers).Basic) :
    s.Answers env (run env (getOrHeadObject env bucket key versionId headers false) w).1 (.getObject bucket key versionId headers) := by
  obtain ⟨hc, hrange⟩ := hr
  have hdb := hsteady.tidy.wellKeyed
  have hreplies : s.Replies env (run env (getOrHeadObject env bucket key versionId headers false) w).1
    (.getObject bucket key versionId headers) := getObject_replies hsteady hstocked hs
  have hanswer := hreplies hc
  simp only [Vault.Answers]
  cases hlook : (s.history bucket key).look versionId with
  | none =>
    have hnone := hs.look hdb bucket key versionId
    rw [hlook] at hnone
    have hfails := @getObject_fails env w bucket key versionId headers hdb (Option.map_eq_none_iff.mp hnone.symm)
    simp only [hs.missing_iff]
    exact hfails
  | some v =>
    rw [hlook] at hanswer
    obtain ⟨id, content⟩ := v
    cases content with
    | none => exact hanswer
    | some c =>
      have hwhole : parseRangeHeader headers c.length = .ok none := by
        unfold parseRangeHeader
        rw [hrange]
      simp only [Vault.Sends, hwhole] at hanswer
      exact hanswer

theorem answers_basic {r : Request} (hr : r.Basic) (hs : Shows env w s) (hfree : Unlocked w) {g : Ghost} {gr : Ground}
    (hsteady : Steady env w g gr) (hstocked : Stocked env w g gr) : s.Answers env (run env (r.handler env) w).1 r := by
  cases r with
  | createBucket bucket headers =>
    exact succeeds_iff (ensures_createBucket bucket headers) (fun _ _ h => (hs.missing_iff bucket).mpr h.1) fun _ _ h hnone =>
      h.1 ((hs.missing_iff bucket).mp hnone)
  | putBucketVersioning bucket body => exact answers_putBucketVersioning hs
  | putObject bucket key headers body => exact answers_putObject hs hfree hr
  | copyObject bucket key source headers => exact answers_copyObject hs hfree hsteady hstocked
  | deleteObject bucket key versionId => exact answers_deleteObject hs hfree
  | getObject bucket key versionId headers => exact answers_getObject hs hsteady hstocked hr
  | _ => exact hr.elim

/-! ## Runs -/

theorem obeys_of_allFit (henv : env.Sane) (hclock : StrictMono env.now) {requests : List Request} (hreqs : ∀ r ∈ requests, r.Basic)
    (hw : Sequential env (Ranged env) w) (hs : Shows env w s) (hfree : Unlocked w) (h : AllFit env w requests) :
    ∃ s', Vault.Obeys env s (transcript env w requests) s' ∧ Shows env (served env w requests) s' := by
  induction requests generalizing w s with
  | nil => exact ⟨s, .nil s, hs⟩
  | cons r requests ih =>
    obtain ⟨hwell, hfits, hrest⟩ := h
    have hr := hreqs r (List.mem_cons_self ..)
    have hnext := hw.request hwell hfits
    obtain ⟨hsteady, hstocked⟩ := sequential_stocked henv hw
    have hsettled : Settled env w r := ⟨henv, hclock, hwell, hfits, hsteady, hstocked, (sequential_stocked henv hnext).1⟩
    obtain ⟨s1, hserves, hs1⟩ := simulates_request hsettled hs
    have hanswers := answers_basic hr hs hfree hsteady hstocked
    obtain ⟨s', hobeys, hs'⟩ := ih (fun r' hr' => hreqs r' (List.mem_cons_of_mem _ hr')) hnext hs1 (hfree.request hr) hrest
    exact ⟨s', .cons hserves hanswers hobeys, hs'⟩

/-- Basic requests whose bodies have different digests, on a clock that advances: as long as no count
    saturates, the vault makes of each what the server does, and answers it alike. -/
theorem versions_refined (henv : env.Sane) (hclock : StrictMono env.now) {requests : List Request}
    (hreqs : ∀ r ∈ requests, r.WellFormed ∧ r.Basic) (hhash : Set.InjOn env.blake3 (bodies requests))
    (hroom : AllRoom env .empty requests) :
    ∃ s, Vault.Obeys env .empty (transcript env .empty requests) s ∧ Shows env (served env .empty requests) s :=
  obeys_of_allFit henv hclock (fun r hr => (hreqs r hr).2) .empty (.empty env) .empty (allFit_of_basic henv hreqs hhash hroom)

end

theorem allRoom_of_check {env : Env} {requests : List Request} {w : World} (h : servedCheck env (roomCheck env) requests w = true) :
    AllRoom env w requests := by
  induction requests generalizing w with
  | nil => trivial
  | cons r requests ih =>
    simp only [servedCheck, Bool.and_eq_true, decide_eq_true_eq] at h
    obtain ⟨⟨-, hmeets⟩, hrest⟩ := h
    exact ⟨meets_discard_iff.mp (Prog.meets_of_check (fun _ _ hcheck => hasRoom_of_check hcheck) hmeets), ih hrest⟩

/-- An object overwritten, copied from the version before, deleted, and brought back by the deletion of
    the marker. -/
def deletedAndRestored : List Request :=
  [.createBucket (str "bucket") [], .putObject (str "bucket") (str "k") [] (str "a"),
    .putBucketVersioning (str "bucket") (str "<VersioningConfiguration><Status>Enabled</Status></VersioningConfiguration>"),
    .putObject (str "bucket") (str "k") [] (str "b"),
    .copyObject (str "bucket") (str "l") ⟨str "bucket", str "k", some nullVersionId⟩ [],
    .deleteObject (str "bucket") (str "k") none, .getObject (str "bucket") (str "k") none [],
    .deleteObject (str "bucket") (str "k") (some (str "aaaaaaa")), .getObject (str "bucket") (str "k") none [],
    .getObject (str "bucket") (str "l") none []]

set_option maxRecDepth 20000 in
theorem versions_refined_deletedAndRestored : ∃ s, Vault.Obeys sampleEnv .empty (transcript sampleEnv .empty deletedAndRestored) s ∧
    Shows sampleEnv (served sampleEnv .empty deletedAndRestored) s := by
  refine versions_refined sampleEnv_sane sampleEnv_clock (fun r hr => ?_) (fun a ha b hb e => ?_) (allRoom_of_check (by rfl))
  · have hwell : ∀ r ∈ deletedAndRestored, r.WellFormed := by decide
    refine ⟨hwell r hr, ?_⟩
    simp only [deletedAndRestored, List.mem_cons, List.not_mem_nil, or_false] at hr
    obtain rfl | rfl | rfl | rfl | rfl | rfl | rfl | rfl | rfl | rfl := hr
    · rfl
    · exact ⟨⟨rfl, rfl, rfl⟩, rfl, rfl, by decide⟩
    · trivial
    · exact ⟨⟨rfl, rfl, rfl⟩, rfl, rfl, by decide⟩
    · trivial
    · trivial
    · exact ⟨⟨rfl, rfl, rfl, rfl⟩, rfl⟩
    · trivial
    · exact ⟨⟨rfl, rfl, rfl, rfl⟩, rfl⟩
    · exact ⟨⟨rfl, rfl, rfl, rfl⟩, rfl⟩
  · have hbody : ∀ c ∈ bodies deletedAndRestored, c = str "a" ∨ c = str "b" := by
      intro c hc
      obtain ⟨bucket, key, headers, hmem⟩ := hc
      simp only [deletedAndRestored, List.mem_cons, List.not_mem_nil, or_false, Request.putObject.injEq, reduceCtorEq, false_or] at hmem
      rcases hmem with ⟨-, -, -, rfl⟩ | ⟨-, -, -, rfl⟩
      · exact Or.inl rfl
      · exact Or.inr rfl
    rcases hbody a ha with rfl | rfl <;> rcases hbody b hb with rfl | rfl
    · rfl
    · exact absurd e (by decide)
    · exact absurd e (by decide)
    · rfl

/-! ## A saturated count -/

section
variable {env : Env} {w : World} {s s' : Vault} {bucket : Str} {key : Nat → Str} {body : Bytes} {n d : Nat}

theorem transcript_append (before after : List Request) :
    transcript env w (before ++ after) = transcript env w before ++ transcript env (served env w before) after := by
  induction before generalizing w with
  | nil => rfl
  | cons r before ih =>
    simp only [List.cons_append, transcript, ih]
    rfl

namespace Vault.Obeys

theorem split {before after : List (Request × Except Failure Response)} (h : Obeys env s (before ++ after) s') :
    ∃ s1, Obeys env s before s1 ∧ Obeys env s1 after s' := by
  induction before generalizing s with
  | nil => exact ⟨s, .nil s, h⟩
  | cons a before ih =>
    cases h with
    | cons hserves hanswers hrest =>
      obtain ⟨s1, hbefore, hafter⟩ := ih hrest
      exact ⟨s1, .cons hserves hanswers hbefore, hafter⟩

theorem runs {run : List (Request × Except Failure Response)} (h : Obeys env s run s') : Runs env s run s' := by
  induction h with
  | nil s => exact .nil s
  | cons hserves _ _ ih => exact .cons hserves ih

end Vault.Obeys

/-- A PUT leaves the buckets as they are. -/
theorem Vault.Runs.keeps_versioning {run : List (Request × Except Failure Response)} (h : Runs env s run s')
    (hputs : ∀ a ∈ run, ∃ bucket key headers body, a.1 = .putObject bucket key headers body) : s'.versioning = s.versioning := by
  induction h with
  | nil s => rfl
  | @cons s s1 s' r answer rest hserves _ ih =>
    rw [ih fun a ha => hputs a (List.mem_cons_of_mem _ ha)]
    obtain ⟨bucket, key, headers, body, rfl⟩ := hputs _ (List.mem_cons_self ..)
    cases answer with
    | error e => rw [hserves.refused e rfl]
    | ok resp =>
      obtain ⟨id, -, rfl⟩ := hserves.done resp rfl
      rfl

/-- The object put last is in the vault, whichever of the others are deleted. -/
theorem copies_content (hnames : Names bucket key) (hd : d ≤ n)
    (h : Vault.Obeys env .empty (transcript env .empty (copies bucket key body (n + 1) d)) s) :
    s.content bucket (key n) (some nullVersionId) = some body := by
  have hsplit : copies bucket key body (n + 1) d = [.createBucket bucket []] ++ ((List.range n).map (putCopy bucket key body) ++
      ([putCopy bucket key body n] ++ (List.range d).map (deleteCopy bucket key))) := by
    simp only [copies, List.range_succ, List.map_append, List.map_cons, List.map_nil, List.append_assoc, List.cons_append, List.nil_append]
  have hfilled := filled_puts hnames (filled_created env bucket key body) n
  rw [hsplit, transcript_append, transcript_append, transcript_append] at h
  obtain ⟨s1, hcreate, h⟩ := h.split
  obtain ⟨s2, hputs, h⟩ := h.split
  obtain ⟨s3, hput, hdeletes⟩ := h.split
  have hoff : s2.versioning bucket = some .off := by
    rw [hputs.runs.keeps_versioning fun a ha => ?_]
    · cases hcreate with
      | cons hserves _ hrest =>
        cases hrest
        obtain rfl := hserves.done _ rfl
        exact Function.update_self ..
    · obtain ⟨i, -, hi⟩ := List.mem_map.mp (mem_transcript ha)
      exact ⟨bucket, key i, [], body, hi.symm⟩
  obtain ⟨resp, hresp⟩ := filled_put_succeeds hfilled
  have hlook : (s3.history bucket (key n)).look (some nullVersionId) = some ⟨nullVersionId, some body⟩ := by
    cases hput with
    | cons hserves _ hrest =>
      cases hrest
      obtain ⟨id, hid, rfl⟩ := hserves.done resp hresp
      unfold Vault.Names at hid
      rw [hoff] at hid
      obtain rfl := hid
      unfold Vault.write
      simp only [and_self, if_true]
      exact History.look_record_self (s2.history bucket (key n)) ⟨nullVersionId, some body⟩
  unfold Vault.content
  rw [hdeletes.runs.keeps_history fun a ha => ?_, hlook]
  · rfl
  · obtain ⟨i, hi, he⟩ := List.mem_map.mp (mem_transcript ha)
    have hless := List.mem_range.mp hi
    rw [← he]
    refine decide_eq_false fun hsame => ?_
    have heq := hnames.distinct hsame.2
    omega

/-- A GET of an object whose file is gone fails. -/
theorem ensures_getLost {bucket key id : Str} {m : Manifest} {p : PartRef} (hm : w.db.objects.get (ManifestKey.mk bucket key id).encode = some m)
    (hs : m.state = .committed) (hparts : m.parts = [p]) (hfile : w.files.get p.hash = none) :
    Ensures env (getOrHeadObject env bucket key (some id) [] false) w (fun _ _ => False) fun _ _ => True := by
  simp only [getOrHeadObject, ensures_bind, ensures_requireBucket, ensures_ensure]
  refine ⟨fun cfg _ => ?_, fun _ => trivial⟩
  have hfound : foundVersion w.db bucket key (some id) = some m := hm
  refine ensures_findVersion (w := { w with clock := w.clock + 2 }) hfound hs ⟨fun _ => ?_, fun _ => trivial⟩
  refine (quiet_etagOf m).ensures (fun etag w1 h1 => ?_) fun _ _ _ => trivial
  rw [evaluatePreconditions_none ⟨rfl, rfl, rfl, rfl⟩]
  simp only [ensures_bind, ensures_ofExcept]
  refine ⟨fun range _ => ?_, fun _ _ => trivial⟩
  have hmissing : (exec env (.readPart p.hash) w1).1 = none := by
    show w1.files.get p.hash = none
    rw [h1.files]
    exact hfile
  unfold readBody
  rw [if_neg Bool.false_ne_true, hparts]
  simp only [readParts, ensures_bind, ensures_op, hmissing, ensures_orFail]
  exact ⟨fun a ha => (by cases ha), fun _ => trivial⟩

/-- Objects of one content, all but the last deleted, and a GET of that one. -/
def lastCopy (bucket : Str) (key : Nat → Str) (body : Bytes) (n : Nat) : List Request :=
  copies bucket key body (n + 1) n ++ [.getObject bucket (key n) (some nullVersionId) []]

/-- With so many objects the vault has the last, and the server has lost its file. -/
theorem lastCopy_disobeys (hnames : Names bucket key) (hn : u32Max ≤ n) :
    ¬ ∃ s, Vault.Obeys env .empty (transcript env .empty (lastCopy bucket key body n)) s := by
  intro h
  obtain ⟨s, hs⟩ := h
  unfold lastCopy at hs
  rw [transcript_append] at hs
  obtain ⟨s1, hcopies, hget⟩ := hs.split
  have hfilled : Filled env bucket key body (n + 1) n (served env .empty (copies bucket key body (n + 1) n)) :=
    filled_copies hnames (Nat.le_succ n)
  obtain ⟨m, hm, -, hstate, -, -, hparts⟩ := hfilled.rows n le_rfl (Nat.lt_succ_self n)
  have hlost := @ensures_getLost env _ _ _ _ _ _ hm hstate hparts (hfilled.gone (by omega)).2
  have hcontent := copies_content hnames le_rfl hcopies
  cases hget with
  | cons _ hanswers _ =>
    simp only [Vault.Answers] at hanswers
    unfold Vault.content at hcontent
    obtain ⟨v, hv, hbody⟩ := Option.bind_eq_some_iff.mp hcontent
    obtain ⟨id, c⟩ := v
    obtain rfl : c = some body := hbody
    rw [hv] at hanswers
    obtain ⟨resp, hresp, -⟩ := hanswers
    exact hlost.ok (Prod.ext hresp rfl)

theorem lastCopy_wellFormed (hnames : Names bucket key) {r : Request} (hr : r ∈ lastCopy bucket key body n) : r.WellFormed := by
  rcases List.mem_append.mp hr with hr | hr
  · exact copies_wellFormed hnames r hr
  · rw [List.mem_singleton.mp hr]
    exact hnames.object n

theorem lastCopy_basic (hsize : body.length < 2 ^ 64) {r : Request} (hr : r ∈ lastCopy bucket key body n) : r.Basic := by
  rcases List.mem_append.mp hr with hr | hr
  · rcases mem_copies hr with rfl | ⟨i, rfl⟩ | ⟨i, rfl⟩
    · rfl
    · exact ⟨⟨rfl, rfl, rfl⟩, rfl, rfl, hsize⟩
    · trivial
  · rw [List.mem_singleton.mp hr]
    exact ⟨⟨rfl, rfl, rfl, rfl⟩, rfl⟩

theorem eq_of_mem_bodies {data : Bytes} (h : data ∈ bodies (lastCopy bucket key body n)) : data = body := by
  obtain ⟨b, k, headers, hmem⟩ := h
  rcases List.mem_append.mp hmem with hmem | hmem
  · rcases mem_copies hmem with e | ⟨i, e⟩ | ⟨i, e⟩
    · cases e
    · cases e
      rfl
    · cases e
  · cases List.mem_singleton.mp hmem

end

/-- One object more than the count can hold, and as many deletions as it has counted: the vault has the
    bytes of the object that is left, and a GET of it fails. -/
theorem a_saturated_count_loses_a_version : ¬ ∀ requests : List Request, (∀ r ∈ requests, r.WellFormed ∧ r.Basic) →
    Set.InjOn sampleEnv.blake3 (bodies requests) →
      ∃ s, Vault.Obeys sampleEnv .empty (transcript sampleEnv .empty requests) s := by
  intro hall
  refine lastCopy_disobeys names_natStr le_rfl (hall (lastCopy (str "bucket") natStr (str "a") u32Max) (fun r hr => ?_) fun a ha b hb _ => ?_)
  · exact ⟨lastCopy_wellFormed names_natStr hr, lastCopy_basic (by decide) hr⟩
  · rw [eq_of_mem_bodies ha, eq_of_mem_bodies hb]

end S3lite
