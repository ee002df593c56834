/-
  S3lite.Safety.Recovery — what the sweeper's collection recovers from.

  - `marked_uncounted`: in every state, however the requests before it ended, a row marked
    for collection has a count of 0.
  - `sweep_recovers_iff`: a collection with nothing else running leaves no row with a count
    of 0, deletes no referenced part, and opens the store to every PUT, exactly if it starts
    with no marked row and no orphan that is referenced. `list_orphan_parts` selects live
    rows only, so what a cut-off collection had marked stays marked
    (`a_cut_collection_is_kept`).
-/
import S3lite.Safety.Pool
import S3lite.Server.Alone

namespace S3lite

open Handler

/-! ## Marked rows -/

/-- A row marked for collection has a count of 0. -/
def MarkedUncounted (parts : Parts) : Prop := ∀ h e, parts.get h = some e → e.state = .gcPending → e.refcount = 0

theorem PartsStep.markedUncounted {op : MetaOp} {parts parts' : Parts} (h : PartsStep op parts parts')
    (hm : MarkedUncounted parts) : MarkedUncounted parts' := by
  intro x e he hs
  cases h with
  | recount _ _ _ hr =>
    cases hold : parts.get x with
    | none =>
      obtain ⟨hl, -⟩ := hr.created x e hold he
      rw [hl] at hs
      cases hs
    | some r =>
      obtain ⟨r', hr', hs', h0⟩ := hr.kept x r hold
      rw [he] at hr'
      cases hr'
      have hpending := hs'.symm.trans hs
      exact h0 hpending (hm x r hold hpending)
  | mark y r _ hr h0 =>
    rw [Table.get_insert] at he
    split at he
    · cases he
      exact h0
    · exact hm x e he hs
  | remove y =>
    rw [Table.get_erase] at he
    split at he
    · cases he
    · exact hm x e he hs

theorem marked_uncounted {env : Env} {Start : Prog Op Op.Res Unit → Prop} {Guard : ServerConfig → Nat → Op → Prop}
    {c : ServerConfig} (h : Running env Start Guard c) : MarkedUncounted c.world.db.parts := by
  refine h.world (I := fun w => MarkedUncounted w.db.parts) (fun _ _ e => by cases e) fun op w hw => ?_
  cases op with
  | metaOp op => exact (exec_parts op _ _ w.db).markedUncounted hw
  | _ => exact hw

/-! ## The collection -/

section
variable {env : Env} {w : World}

theorem ensures_sweepParts {E : Failure → World → Prop} (orphans : List Hash) :
    Ensures env (sweepParts orphans) w (fun _ w' => Collected orphans w w') E := by
  induction orphans generalizing w with
  | nil => exact .refl w
  | cons hash orphans ih =>
    unfold sweepParts
    rw [ensures_bind]
    refine (ensures_collectPart hash).mono (fun removed w1 h1 => ?_) fun _ _ h => h
    rw [ensures_bind]
    exact ih.mono (fun _ _ h2 => h1.trans h2) fun _ _ h => h

theorem ensures_sweepGc {E : Failure → World → Prop} :
    Ensures env sweepGc w (fun _ w' => Collected (handleListOrphanParts w.db) w w') E := by
  unfold sweepGc
  rw [ensures_bind, ensures_op]
  refine (ensures_sweepParts (handleListOrphanParts w.db)).mono (fun _ w' h => ?_) fun _ _ h => h
  exact ⟨h.buckets, h.objects, h.uuids, (Nat.le_add_right ..).trans h.clock, h.gone, h.kept⟩

theorem mem_listOrphanParts {db : Db} {h : Hash} :
    h ∈ handleListOrphanParts db ↔ ∃ e, db.parts.get h = some e ∧ e.refcount = 0 ∧ e.state = .live := by
  unfold handleListOrphanParts
  simp only [List.mem_map, List.mem_filter, decide_eq_true_eq]
  constructor
  · rintro ⟨r, ⟨hr, h0, hs⟩, rfl⟩
    exact ⟨r.2, Table.get_of_mem hr, h0, hs⟩
  · rintro ⟨e, he, h0, hs⟩
    exact ⟨(h, e), ⟨Table.mem_rows.mpr he, h0, hs⟩, rfl⟩

/-! ## PUT on a store without marked rows -/

/-- The failure is not a passed-on error of the metadata store. -/
def Failure.Own (e : Failure) : Prop := ∀ m, e ≠ .error (mapMetaErr m)

theorem own_panicked : Failure.panicked.Own := fun _ h => by cases h

theorem own_withResource (e : S3Error) (resource : Str) : (Failure.error (e.withResource resource)).Own := by
  intro m h
  injection h with he
  cases congrArg S3Error.resource he

theorem own_mapError {α : Type} {r : Except S3Error α} {resource : Str} {e : S3Error}
    (h : r.mapError (·.withResource resource) = .error e) : (Failure.error e).Own := by
  cases r with
  | ok a => cases h
  | error e' => cases h; exact own_withResource e' resource

theorem own_parseContentMd5 {headers : HeaderMap} {e : S3Error}
    (h : parseContentMd5 env .invalidRequest headers = .error e) : (Failure.error e).Own := by
  have hcode : e.code = .invalidRequest := by
    unfold parseContentMd5 at h
    repeat' split at h
    all_goals cases h
    all_goals rfl
  intro m hm
  cases hm
  cases hcode

/-- A step of a handler that only reads, and fails with an error of its own. -/
def ReadsOnly {α : Type} (env : Env) (x : Handler α) : Prop :=
  ∀ w, Ensures env x w (fun _ w' => w'.db = w.db) fun e _ => e.Own

theorem ReadsOnly.ensures {α : Type} {x : Handler α} (h : ReadsOnly env x) {Q : α → World → Prop}
    (hq : ∀ a w', w'.db = w.db → Q a w') : Ensures env x w Q fun e _ => e.Own :=
  (h w).mono hq fun _ _ h => h

theorem readsOnly_requireBucket (bucket : Str) : ReadsOnly env (requireBucket bucket) := by
  intro w
  unfold requireBucket
  simp only [ensures_bind, ensures_op, ensures_orFail]
  exact ⟨fun _ _ => rfl, fun _ => own_withResource _ _⟩

theorem readsOnly_etagOf (m : Manifest) : ReadsOnly env (etagOf env m) := by
  intro w
  unfold etagOf
  split
  · exact rfl
  · exact own_panicked

theorem readsOnly_existingMatches (existing : Option Manifest) (raw : Str) :
    ReadsOnly env (existingMatches env existing raw) := by
  intro w
  cases existing with
  | none => exact rfl
  | some m =>
    unfold existingMatches
    rw [ensures_bind]
    exact (readsOnly_etagOf m).ensures fun _ _ h => h

theorem readsOnly_nextVersionId (v : VersioningState) : ReadsOnly env (nextVersionId v) := by
  intro w
  cases v <;> exact rfl

theorem readsOnly_checkIfMatch (bucket key : Str) (existing : Option Manifest) (im : Option Str) :
    ReadsOnly env (checkIfMatch env bucket key existing im) := by
  intro w
  cases im with
  | none => exact rfl
  | some im =>
    unfold checkIfMatch
    simp only [ensures_bind, ensures_ensure]
    exact (readsOnly_existingMatches existing im).ensures fun _ _ h => ⟨fun _ => h, fun _ => own_withResource _ _⟩

theorem readsOnly_checkIfNoneMatch (bucket key : Str) (existing : Option Manifest) (inm : Option Str) :
    ReadsOnly env (checkIfNoneMatch env bucket key existing inm) := by
  intro w
  cases inm with
  | none => exact rfl
  | some inm =>
    unfold checkIfNoneMatch
    simp only [ensures_bind, ensures_ensure]
    exact (readsOnly_existingMatches existing inm).ensures fun _ _ h => ⟨fun _ => h, fun _ => own_withResource _ _⟩

theorem readsOnly_checkPutPreconditions (bucket key : Str) (headers : HeaderMap) :
    ReadsOnly env (checkPutPreconditions env bucket key headers) := by
  intro w
  unfold checkPutPreconditions
  simp only
  split
  · exact rfl
  · simp only [ensures_bind, ensures_op]
    refine (readsOnly_checkIfMatch _ _ _ _).ensures fun _ w1 h1 => ?_
    exact (readsOnly_checkIfNoneMatch _ _ _ _).ensures fun _ w2 h2 => h2.trans h1

theorem readsOnly_lockForPut (cfg : Option ObjectLockConfig) (l : Option ObjectLock) : ReadsOnly env (lockForPut cfg l) := by
  intro w
  cases l with
  | some l => exact rfl
  | none =>
    show Ensures env (defaultLockForBucket cfg) w _ _
    unfold defaultLockForBucket
    split
    · exact rfl
    · simp only [ensures_bind, ensures_op]
      split
      · exact rfl
      · simp only [ensures_bind, addDays]
        split
        · exact rfl
        · exact own_panicked

theorem putObject_opens (hlive : Live w.db.parts) (bucket key : Str) (headers : HeaderMap) (body : Bytes) :
    Ensures env (putObject env bucket key headers body) w (fun _ _ => True) fun e _ => e.Own := by
  unfold putObject
  simp only [ensures_bind, ensures_ofExcept, ensures_ensure, ensures_op, ensures_mapErr, ensures_ok]
  refine (readsOnly_requireBucket bucket).ensures fun cfg w1 h1 => ?_
  refine (readsOnly_checkPutPreconditions _ _ _).ensures fun _ w2 h2 => ?_
  refine ⟨fun expected _ => ⟨fun _ => ?_, fun _ => own_withResource _ _⟩, fun e he => own_parseContentMd5 he⟩
  refine ⟨fun checksum _ => ⟨fun _ _ => ?_, fun e he => own_mapError he⟩, fun e he => own_mapError he⟩
  refine (readsOnly_nextVersionId _).ensures fun versionId w3 h3 => ?_
  refine ⟨fun tags _ => ⟨fun headerLock _ => ?_, fun e he => own_mapError he⟩, fun e he => own_mapError he⟩
  refine (readsOnly_lockForPut _ _).ensures fun lock w4 h4 => ?_
  refine (readsOnly_etagOf _).ensures fun etag w5 h5 => ?_
  -- the store is as it was, so nothing is marked
  have hdb : w5.db = w.db := h5.trans (h4.trans (h3.trans (h2.trans h1)))
  have hput : ∀ m e, (exec env (.metaOp (.putManifest m)) w5).1 ≠ .error e := by
    intro m e he
    obtain ⟨effect, db', hp, -⟩ := put_live (env.now w5.clock) m (hdb.symm ▸ hlive)
    simp only [exec, MetaOp.exec, hp, commit_ok] at he
    cases he
  refine ⟨fun _ _ => ?_, fun e he => absurd he (hput _ e)⟩
  exact (ensures_gcFreedParts _).mono (fun _ _ _ => trivial) fun _ _ h => h

/-! ## The recovery -/

/-- What a collection with nothing else running is for: no row is left without a reference,
    no referenced part is touched, and no PUT afterwards finds a marked row. -/
structure Recovers (env : Env) (w : World) : Prop where
  swept : ∀ h e, (run env sweepGc w).2.db.parts.get h = some e → e.refcount ≠ 0
  kept : ∀ h, 0 < refs w.db h →
    (run env sweepGc w).2.db.parts.get h = w.db.parts.get h ∧ (run env sweepGc w).2.files.get h = w.files.get h
  opened : ∀ bucket key headers body hex,
    (run env (putObject env bucket key headers body) (run env sweepGc w).2).1 ≠
      .error (.error (mapMetaErr (.partGcPending hex)))

theorem sweepGc_collected (w : World) : Collected (handleListOrphanParts w.db) w (run env sweepGc w).2 := by
  have h : Ensures env sweepGc w (fun _ w' => Collected (handleListOrphanParts w.db) w w') fun _ _ => False := ensures_sweepGc
  unfold Ensures at h
  rcases hr : run env sweepGc w with ⟨_ | _, w'⟩ <;> rw [hr] at h
  · exact h.elim
  · exact h

theorem recovers_iff (hm : MarkedUncounted w.db.parts) :
    Recovers env w ↔ Live w.db.parts ∧ ∀ h e, w.db.parts.get h = some e → e.refcount = 0 → refs w.db h = 0 := by
  have hc : Collected (handleListOrphanParts w.db) w (run env sweepGc w).2 := sweepGc_collected w
  constructor
  · intro hr
    have hlive : Live w.db.parts := by
      intro h e he
      cases hs : e.state with
      | live => rfl
      | gcPending =>
        -- a marked row is not in the snapshot, and stays
        have hnot : h ∉ handleListOrphanParts w.db := fun hmem => by
          obtain ⟨e', he', -, hs'⟩ := mem_listOrphanParts.mp hmem
          rw [he] at he'
          cases he'
          rw [hs] at hs'
          cases hs'
        have hget := (hc.kept h fun hmem => absurd hmem hnot).1
        exact absurd (hm h e he hs) (hr.swept h e (hget.trans he))
    refine ⟨hlive, fun h e he h0 => ?_⟩
    by_contra hne
    have hgone := (hc.gone h (mem_listOrphanParts.mpr ⟨e, he, h0, hlive h e he⟩) ⟨e, he, h0⟩).1
    have hkept := (hr.kept h (by omega)).1
    rw [hgone, he] at hkept
    cases hkept
  · rintro ⟨hlive, hzero⟩
    have hafter : ∀ h e, (run env sweepGc w).2.db.parts.get h = some e → w.db.parts.get h = some e ∧ e.refcount ≠ 0 := by
      intro h e he
      by_cases ho : Orphan w.db.parts h
      · obtain ⟨r, hr, h0⟩ := ho
        rw [(hc.gone h (mem_listOrphanParts.mpr ⟨r, hr, h0, hlive h r hr⟩) ⟨r, hr, h0⟩).1] at he
        cases he
      · have hget := (hc.kept h fun _ => ho).1
        rw [hget] at he
        exact ⟨he, fun h0 => ho ⟨e, he, h0⟩⟩
    refine ⟨fun h e he => (hafter h e he).2, fun h hpos => ?_, fun bucket key headers body hex hput => ?_⟩
    · exact hc.kept h fun _ ⟨e, he, h0⟩ => by have := hzero h e he h0; omega
    · have hopen : Ensures env (putObject env bucket key headers body) (run env sweepGc w).2 _ _ :=
        putObject_opens (fun h e he => hlive h e (hafter h e he).1) bucket key headers body
      exact hopen.error (Prod.ext hput rfl) _ rfl

end

/-- From any state the server can be left in: the collection recovers exactly if no row is
    marked and no row with a count of 0 is referenced. -/
theorem sweep_recovers_iff {env : Env} {c : ServerConfig} (h : Running env (Serves env) (fun _ _ _ => True) c) :
    Recovers env c.world ↔ Live c.world.db.parts ∧
      ∀ hash e, c.world.db.parts.get hash = some e → e.refcount = 0 → refs c.world.db hash = 0 :=
  recovers_iff (marked_uncounted h)

/-- A DELETE that dropped the last reference to its bytes, before it collects them. -/
def orphaned : List Event :=
  [.request 0 (.createBucket (str "bucket") []), .steps 0 2,
    .request 0 (.putObject (str "bucket") (str "k") [] (str "a")), .steps 0 4,
    .request 0 (.deleteObject (str "bucket") (str "k") none), .steps 0 3]

theorem sweep_recovers_an_orphan : ∃ c, Running sampleEnv (Serves sampleEnv) (fun _ _ _ => True) c ∧
    (∃ r ∈ c.world.db.parts.rows, r.2.refcount = 0) ∧ Recovers sampleEnv c.world := by
  apply running_reaches 1 orphaned (fun _ _ _ => true)
    fun c => (c.world.db.parts.rows.all fun r => decide (r.2.state = .live ∧ refs c.world.db r.1 = 0)) &&
      c.world.db.parts.rows.any fun r => decide (r.2.refcount = 0)
  · exact fun _ _ _ _ _ => trivial
  · rfl
  · rfl
  · intro c hc hq
    rw [Bool.and_eq_true, List.all_eq_true, List.any_eq_true] at hq
    obtain ⟨hall, r, hr, h0⟩ := hq
    refine ⟨⟨r, hr, of_decide_eq_true h0⟩, (sweep_recovers_iff hc).mpr ⟨fun h e he => ?_, fun h e he _ => ?_⟩⟩
    · exact (of_decide_eq_true (hall _ (Table.mem_rows.mpr he))).1
    · exact (of_decide_eq_true (hall _ (Table.mem_rows.mpr he))).2

/-- A DELETE cut off after its mark. -/
def cutOff : List Event := orphaned ++ [.steps 0 1]

theorem a_cut_collection_is_kept :
    ¬ ∀ c, Running sampleEnv (ServesOnly sampleEnv Request.writesObjects false) (fun _ _ _ => True) c →
      Recovers sampleEnv c.world := by
  apply running_refutes 1 cutOff (fun _ _ _ => true)
    fun c => (run sampleEnv sweepGc c.world).2.db.parts.rows.any fun r => decide (r.2.refcount = 0)
  · exact fun _ _ _ _ _ => trivial
  · rfl
  · rfl
  · intro c hq hr
    obtain ⟨r, hmem, h0⟩ := List.any_eq_true.mp hq
    exact hr.swept r.1 r.2 (Table.get_of_mem hmem) (of_decide_eq_true h0)

end S3lite
