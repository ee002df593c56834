/-
  S3lite.Lifecycle.Replay — the lifecycle sweep as actions on the table of rows, one after
  the other.

  The sweep decides on each action from the rows it listed, and then acts on the rows as
  they are by then. In a bucket with suspended versioning the two differ: a delete marker
  goes into the row "null", which may hold a version the sweep has yet to come to.
  - `replay`: what a list of actions leaves of the rows.
  - `evaluateManifest_replay`, …, `sweepLifecycle_replay`: the loops, from the inside out.
    Whatever the versioning, none of the actions fails.
-/
import S3lite.Lifecycle.Rules
import S3lite.Safety.Pool

namespace S3lite

open Handler

/-! ## Actions -/

/-- The delete marker the sweep puts over an expired object. -/
def markerFor (env : Env) (now : Time) (versioning : Option VersioningState) (uuids : Nat) (m : Manifest) : Manifest :=
  tombstone ⟨m.key.bucket, m.key.key, if versioning = some .enabled then env.uuid uuids else nullVersionId⟩ now

/-- What the sweep does to the rows and the ids, once it has decided about the manifest from
    the store it listed. -/
def replayOne (env : Env) (db : Db) (now : Time) (s : Objects × Nat) (m : Manifest) : Objects × Nat :=
  match sweepAction db now m with
  | .keep => s
  | .abortUpload | .expireNoncurrent => (s.1.erase m.key.encode, s.2)
  | .expireCurrent =>
    let t := markerFor env now (versioningOf db m.key.bucket) s.2 m
    match versioningOf db m.key.bucket with
    | some .enabled => (s.1.insert t.key.encode t, s.2 + 1)
    | some .suspended => (s.1.insert t.key.encode t, s.2)
    | _ => (s.1.erase m.key.encode, s.2)

def replay (env : Env) (db : Db) (now : Time) (done : List Manifest) (s : Objects × Nat) : Objects × Nat :=
  done.foldl (replayOne env db now) s

/-- Every row is under its own key, which has no NUL in it. -/
def RowsKeyed (o : Objects) : Prop := ∀ r ∈ o.rows, r.1 = r.2.key.encode ∧ r.2.key.NulFree

section
variable {env : Env} {db : Db} {now : Time} {s : Objects × Nat} {done : List Manifest} {m : Manifest}

theorem replay_append (done ms : List Manifest) (s : Objects × Nat) :
    replay env db now (done ++ ms) s = replay env db now ms (replay env db now done s) := List.foldl_append

theorem replay_snoc (done : List Manifest) (m : Manifest) (s : Objects × Nat) :
    replay env db now (done ++ [m]) s = replayOne env db now (replay env db now done s) m := by
  rw [replay_append]
  rfl

theorem markerFor_nulFree {n : Nat} (huuid : NulFree (env.uuid n)) (hm : m.key.NulFree) {versioning : Option VersioningState} :
    (markerFor env now versioning n m).key.NulFree := by
  refine ⟨hm.bucket, hm.key, ?_⟩
  show NulFree (if versioning = some .enabled then env.uuid n else nullVersionId)
  split
  · exact huuid
  · exact null_clear

/-- Ids are used up in order. -/
theorem replayOne_uuids (s : Objects × Nat) (m : Manifest) : s.2 ≤ (replayOne env db now s m).2 := by
  unfold replayOne
  split
  · exact le_rfl
  · exact le_rfl
  · exact le_rfl
  · simp only
    split
    · exact Nat.le_succ _
    · exact le_rfl
    · exact le_rfl

theorem replay_uuids (ms : List Manifest) (s : Objects × Nat) : s.2 ≤ (replay env db now ms s).2 := by
  induction ms generalizing s with
  | nil => exact le_rfl
  | cons m ms ih => exact (replayOne_uuids s m).trans (ih _)

/-- An action changes rows of the manifest's own key only. -/
theorem replayOne_far (huuid : NulFree (env.uuid s.2)) (hm : m.key.NulFree) {k : ManifestKey} (hk : k.NulFree)
    (hfar : ¬ (m.key.bucket = k.bucket ∧ m.key.key = k.key)) : (replayOne env db now s m).1.get k.encode = s.1.get k.encode := by
  have herase : (s.1.erase m.key.encode).get k.encode = s.1.get k.encode := by
    rw [Table.get_erase, if_neg]
    intro he
    rw [ManifestKey.encode_injective hk hm he] at hfar
    exact hfar ⟨rfl, rfl⟩
  have hinsert : ∀ {versioning : Option VersioningState},
      (s.1.insert (markerFor env now versioning s.2 m).key.encode (markerFor env now versioning s.2 m)).get k.encode =
        s.1.get k.encode := by
    intro versioning
    rw [Table.get_insert, if_neg]
    intro he
    have h := ManifestKey.encode_injective hk (markerFor_nulFree huuid hm) he
    exact hfar ⟨(congrArg ManifestKey.bucket h).symm, (congrArg ManifestKey.key h).symm⟩
  unfold replayOne
  split
  · rfl
  · exact herase
  · exact herase
  · simp only
    split
    · exact hinsert
    · exact hinsert
    · exact herase

theorem replay_far (huuid : ∀ n, s.2 ≤ n → NulFree (env.uuid n)) (hdone : ∀ x ∈ done, x.key.NulFree) {k : ManifestKey} (hk : k.NulFree)
    (hfar : ∀ x ∈ done, ¬ (x.key.bucket = k.bucket ∧ x.key.key = k.key)) :
    (replay env db now done s).1.get k.encode = s.1.get k.encode := by
  induction done generalizing s with
  | nil => rfl
  | cons x done ih =>
    refine (ih (fun n hn => huuid n ((replayOne_uuids s x).trans hn)) (fun y hy => hdone y (List.mem_cons_of_mem _ hy))
      fun y hy => hfar y (List.mem_cons_of_mem _ hy)).trans ?_
    exact replayOne_far (huuid _ le_rfl) (hdone x (List.mem_cons_self ..)) hk (hfar x (List.mem_cons_self ..))

/-- An action removes the manifest's own row at most. -/
theorem replayOne_isSome {k : Bytes} (hk : k ≠ m.key.encode) (h : (s.1.get k).isSome) :
    ((replayOne env db now s m).1.get k).isSome := by
  have herase : ((s.1.erase m.key.encode).get k).isSome := by
    rw [Table.get_erase, if_neg hk]
    exact h
  have hinsert : ∀ t : Manifest, ((s.1.insert t.key.encode t).get k).isSome := by
    intro t
    rw [Table.get_insert]
    split
    · rfl
    · exact h
  unfold replayOne
  split
  · exact h
  · exact herase
  · exact herase
  · simp only
    split
    · exact hinsert _
    · exact hinsert _
    · exact herase

theorem replay_isSome {k : Bytes} (hk : ∀ x ∈ done, k ≠ x.key.encode) (h : (s.1.get k).isSome) :
    ((replay env db now done s).1.get k).isSome := by
  induction done generalizing s with
  | nil => exact h
  | cons x done ih =>
    exact ih (fun y hy => hk y (List.mem_cons_of_mem _ hy)) (replayOne_isSome (hk x (List.mem_cons_self ..)) h)

theorem replayOne_keyed (huuid : NulFree (env.uuid s.2)) (hm : m.key.NulFree) (h : RowsKeyed s.1) :
    RowsKeyed (replayOne env db now s m).1 := by
  have herase : RowsKeyed (s.1.erase m.key.encode) := fun r hr => h r (Table.mem_erase.mp hr).1
  have hinsert : ∀ t : Manifest, t.key.NulFree → RowsKeyed (s.1.insert t.key.encode t) := by
    intro t ht r hr
    rcases Table.mem_insert.mp hr with rfl | ⟨hr, -⟩
    · exact ⟨rfl, ht⟩
    · exact h r hr
  unfold replayOne
  split
  · exact h
  · exact herase
  · exact herase
  · simp only
    split
    · exact hinsert _ (markerFor_nulFree huuid hm)
    · exact hinsert _ (markerFor_nulFree huuid hm)
    · exact herase

theorem replay_keyed (huuid : ∀ n, s.2 ≤ n → NulFree (env.uuid n)) (hdone : ∀ x ∈ done, x.key.NulFree) (h : RowsKeyed s.1) :
    RowsKeyed (replay env db now done s).1 := by
  induction done generalizing s with
  | nil => exact h
  | cons x done ih =>
    exact ih (fun n hn => huuid n ((replayOne_uuids s x).trans hn)) (fun y hy => hdone y (List.mem_cons_of_mem _ hy))
      (replayOne_keyed (huuid _ le_rfl) (hdone x (List.mem_cons_self ..)) h)

end

/-! ## The state in the middle of a sweep -/

/-- The store once the sweep has seen the manifests `done` of the store it began with. -/
structure Replayed (env : Env) (now : Time) (w₀ : World) (done : List Manifest) (w : World) : Prop where
  seen : ∀ m ∈ done, Stored w₀.db m
  rows : (w.db.objects, w.uuids) = replay env w₀.db now done (w₀.db.objects, w₀.uuids)
  buckets : w.db.buckets = w₀.db.buckets
  dlq : w.db.eventsDlq = w₀.db.eventsDlq
  files : w.files = w₀.files

section
variable {env : Env} {now : Time} {w₀ w w' : World} {done : List Manifest} {m : Manifest}

theorem Replayed.objects (h : Replayed env now w₀ done w) :
    w.db.objects = (replay env w₀.db now done (w₀.db.objects, w₀.uuids)).1 := congrArg Prod.fst h.rows

theorem Replayed.wellKeyed (huuid : ∀ n, w₀.uuids ≤ n → NulFree (env.uuid n)) (hw : WellKeyed w₀.db) (h : Replayed env now w₀ done w) :
    WellKeyed w.db := by
  have hkeyed : RowsKeyed w.db.objects := by
    rw [h.objects]
    exact replay_keyed huuid (fun x hx => (h.seen x hx).nulFree hw) hw
  exact hkeyed

/-- A manifest the sweep has yet to come to is there, or a delete marker in its place. -/
theorem Replayed.isSome (hw : WellKeyed w₀.db) (h : Replayed env now w₀ done w) (hm : Stored w₀.db m) (hnew : m ∉ done) :
    (w.db.objects.get m.key.encode).isSome := by
  rw [h.objects]
  refine replay_isSome (fun x hx he => hnew ?_) (by rw [show w₀.db.objects.get m.key.encode = some m from hm]; rfl)
  have hkey := ManifestKey.encode_injective (hm.nulFree hw) ((h.seen x hx).nulFree hw) he
  rw [(h.seen x hx).eq_of_key hm hkey]
  exact hx

/-- One action more. -/
theorem Replayed.step (h : Replayed env now w₀ done w) (hm : Stored w₀.db m)
    (hrows : (w'.db.objects, w'.uuids) = replayOne env w₀.db now (w.db.objects, w.uuids) m)
    (hb : w'.db.buckets = w.db.buckets) (hd : w'.db.eventsDlq = w.db.eventsDlq) (hf : w'.files = w.files) :
    Replayed env now w₀ (done ++ [m]) w' where
  seen := by
    intro x hx
    rcases List.mem_append.mp hx with hx | hx
    · exact h.seen x hx
    · exact List.mem_singleton.mp hx ▸ hm
  rows := by rw [hrows, h.rows, replay_snoc]
  buckets := hb.trans h.buckets
  dlq := hd.trans h.dlq
  files := hf.trans h.files

/-! ## The operations -/

theorem exec_deleteManifest (env : Env) {key : ManifestKey} (h : (w.db.objects.get key.encode).isSome) :
    ∃ effect w', exec env (.metaOp (.deleteManifest key)) w = (.ok effect, w') ∧
      w'.db = { w.db with objects := w.db.objects.erase key.encode, parts := w'.db.parts } ∧
      w'.files = w.files ∧ w'.uuids = w.uuids := by
  obtain ⟨m, hget⟩ := Option.isSome_iff_exists.mp h
  have hop : handleDeleteManifest w.db key = .ok (⟨(decAll w.db.parts m.parts).2⟩,
      { w.db with objects := w.db.objects.erase key.encode, parts := (decAll w.db.parts m.parts).1 }) := by
    rw [handleDeleteManifest, hget]
  have hexec : exec env (.metaOp (.deleteManifest key)) w = (.ok ⟨(decAll w.db.parts m.parts).2⟩,
      { w with
        db := { w.db with objects := w.db.objects.erase key.encode, parts := (decAll w.db.parts m.parts).1 }
        clock := w.clock + 2 }) := by
    simp only [exec, MetaOp.exec, hop, commit_ok]
  exact ⟨_, _, hexec, rfl, rfl, rfl⟩

/-- A marker has no parts, so it is stored. -/
theorem exec_putMarker (env : Env) (w : World) (now : Time) (key : ManifestKey) :
    ∃ effect w', exec env (.metaOp (.putManifest (tombstone key now))) w = (.ok effect, w') ∧
      w'.db = { w.db with
        objects := w.db.objects.insert key.encode (tombstone key now)
        parts := w'.db.parts } ∧ w'.files = w.files ∧ w'.uuids = w.uuids := by
  have hop : ∀ t, handlePutManifest w.db t (tombstone key now) =
      .ok (⟨(decAll w.db.parts (oldParts (w.db.objects.get key.encode))).2⟩,
        { w.db with
          objects := w.db.objects.insert key.encode (tombstone key now)
          parts := (decAll w.db.parts (oldParts (w.db.objects.get key.encode))).1 }) := fun _ => rfl
  have hexec : exec env (.metaOp (.putManifest (tombstone key now))) w =
      (.ok ⟨(decAll w.db.parts (oldParts (w.db.objects.get key.encode))).2⟩,
        { w with
          db := { w.db with
            objects := w.db.objects.insert key.encode (tombstone key now)
            parts := (decAll w.db.parts (oldParts (w.db.objects.get key.encode))).1 }
          clock := w.clock + 2 }) := by
    simp only [exec, MetaOp.exec, hop, commit_ok]
  exact ⟨_, _, hexec, rfl, rfl, rfl⟩

end

/-! ## The loops -/

/-- The report with one more manifest. -/
def note (db : Db) (now : Time) (report : SweepReport) (m : Manifest) : SweepReport :=
  match sweepAction db now m with
  | .keep => report
  | .abortUpload => { report with abortedMultipart := countUp report.abortedMultipart }
  | .expireCurrent => { report with expiredCurrent := countUp report.expiredCurrent }
  | .expireNoncurrent => { report with expiredNoncurrent := countUp report.expiredNoncurrent }

section
variable {env : Env} {now : Time} {w₀ w : World} {done : List Manifest} {bucket : Str} {cfg : BucketConfig} {m : Manifest}

theorem evaluateManifest_replay (hw : WellKeyed w₀.db) (hcfg : w₀.db.buckets.get bucket = some cfg) (hne : activeRules cfg ≠ [])
    (h : Replayed env now w₀ done w) (hm : Stored w₀.db m) (hb : m.key.bucket = bucket) (hnew : m ∉ done) (report : SweepReport) :
    ∃ w', (evaluateManifest bucket cfg.versioning m (sweepCurrent w₀.db bucket m.key.key) (activeRules cfg) now report).run env w =
        (.ok (note w₀.db now report m), w') ∧ Replayed env now w₀ (done ++ [m]) w' := by
  subst hb
  have hrules : bucketRules w₀.db m.key.bucket = activeRules cfg := by rw [bucketRules, hcfg]; rfl
  have hversioning : versioningOf w₀.db m.key.bucket = some cfg.versioning := by rw [versioningOf, hcfg]; rfl
  have hcurrent : decide (sweepCurrent w₀.db m.key.bucket m.key.key = some m.key.versionId) = isCurrent w₀.db m := by
    have hiff := sweepCurrent_iff hw ((mem_listAll_iff hw).mpr ⟨hm, rfl⟩)
    rw [← isCurrent_iff hw hm] at hiff
    exact Bool.eq_iff_iff.mpr (decide_eq_true_iff.trans hiff)
  have haction : lifecycleAction m (decide (sweepCurrent w₀.db m.key.bucket m.key.key = some m.key.versionId)) (activeRules cfg) now =
      sweepAction w₀.db now m := by
    rw [hcurrent, sweepAction, hrules, if_neg hne]
  obtain ⟨effect, w', hexec, hdb, hf, hu⟩ := exec_deleteManifest env (h.isSome hw hm hnew)
  -- the row goes
  have hdelete : replayOne env w₀.db now (w.db.objects, w.uuids) m = (w.db.objects.erase m.key.encode, w.uuids) →
      Replayed env now w₀ (done ++ [m]) w' := fun hact =>
    h.step hm (by rw [hact, hdb, hu]) (by rw [hdb]) (by rw [hdb]) hf
  unfold evaluateManifest note
  rw [haction]
  cases hact : sweepAction w₀.db now m
  case keep => exact ⟨w, rfl, h.step hm (by simp only [replayOne, hact]) rfl rfl rfl⟩
  case abortUpload => exact ⟨w', run_op_bind env hexec, hdelete (by simp only [replayOne, hact])⟩
  case expireNoncurrent => exact ⟨w', run_op_bind env hexec, hdelete (by simp only [replayOne, hact])⟩
  case expireCurrent =>
    cases hv : cfg.versioning with
    | off =>
      have hexpire : (expireCurrent m.key.bucket .off m now).run env w = (.ok (), w') := run_op_bind env hexec
      refine ⟨w', ?_, hdelete (by simp only [replayOne, hact, hversioning, hv])⟩
      rw [Handler.run_bind, hexpire]
      rfl
    | enabled =>
      let w₁ : World := { w with uuids := w.uuids + 1 }
      obtain ⟨effect, w₂, hexec, hdb, hf, hu⟩ := exec_putMarker env w₁ now ⟨m.key.bucket, m.key.key, env.uuid w.uuids⟩
      have hput : (expireCurrent m.key.bucket .enabled m now).run env w = (.ok (), w₂) := run_op_bind env hexec
      refine ⟨w₂, ?_, h.step hm ?_ (by rw [hdb]) (by rw [hdb]) hf⟩
      · rw [Handler.run_bind, hput]
        rfl
      · rw [hdb, hu]
        simp only [replayOne, hact, hversioning, hv]
        rfl
    | suspended =>
      obtain ⟨effect, w₂, hexec, hdb, hf, hu⟩ := exec_putMarker env w now ⟨m.key.bucket, m.key.key, nullVersionId⟩
      have hput : (expireCurrent m.key.bucket .suspended m now).run env w = (.ok (), w₂) := run_op_bind env hexec
      refine ⟨w₂, ?_, h.step hm ?_ (by rw [hdb]) (by rw [hdb]) hf⟩
      · rw [Handler.run_bind, hput]
        rfl
      · rw [hdb, hu]
        simp only [replayOne, hact, hversioning, hv]
        rfl

theorem evaluateAll_replay (hw : WellKeyed w₀.db) (hcfg : w₀.db.buckets.get bucket = some cfg) (hne : activeRules cfg ≠ [])
    {key : Str} {ms : List Manifest} (hms : ∀ m ∈ ms, Stored w₀.db m ∧ m.key.bucket = bucket ∧ m.key.key = key)
    (hnodup : (done ++ ms).Nodup) (h : Replayed env now w₀ done w) (report : SweepReport) :
    ∃ w', (evaluateAll bucket cfg.versioning (sweepCurrent w₀.db bucket key) (activeRules cfg) now report ms).run env w =
        (.ok (ms.foldl (note w₀.db now) report), w') ∧ Replayed env now w₀ (done ++ ms) w' := by
  induction ms generalizing done w report with
  | nil => exact ⟨w, rfl, by rwa [List.append_nil]⟩
  | cons m ms ih =>
    obtain ⟨hm, hb, hk⟩ := hms m (List.mem_cons_self ..)
    have hnew : m ∉ done := fun hin => (List.nodup_append.mp hnodup).2.2 m hin m (List.mem_cons_self ..) rfl
    obtain ⟨w₁, hrun, hswept⟩ := evaluateManifest_replay hw hcfg hne h hm hb hnew report
    rw [List.append_cons] at hnodup ⊢
    obtain ⟨w₂, hrun', hswept'⟩ := ih (fun x hx => hms x (List.mem_cons_of_mem _ hx)) hnodup hswept (note w₀.db now report m)
    refine ⟨w₂, ?_, hswept'⟩
    rw [hk] at hrun
    rw [evaluateAll, Handler.run_bind, hrun]
    exact hrun'

/-- The current version of a group. -/
theorem sweepCurrent_group (db : Db) (bucket key : Str) : sweepCurrent db bucket key =
    ((sortVersions ((handleListAllManifestsInBucket db bucket).filter fun m => m.key.key = key)).find?
      fun m => m.state = .committed).map (·.key.versionId) := by
  unfold sweepCurrent
  simp only [foldl_pushVersion_get, Table.get_empty, Option.getD_none, List.nil_append]

theorem sweepKeys_replay (hw : WellKeyed w₀.db) (hcfg : w₀.db.buckets.get bucket = some cfg) (hne : activeRules cfg ≠ [])
    {groups : List (Str × List Manifest)}
    (hgroups : ∀ r ∈ groups, r.2 = (handleListAllManifestsInBucket w₀.db bucket).filter fun m => m.key.key = r.1)
    (hnodup : (done ++ groups.flatMap fun r => sortVersions r.2).Nodup) (h : Replayed env now w₀ done w) (report : SweepReport) :
    ∃ w', (sweepKeys bucket cfg.versioning (activeRules cfg) now report groups).run env w =
        (.ok ((groups.flatMap fun r => sortVersions r.2).foldl (note w₀.db now) report), w') ∧
      Replayed env now w₀ (done ++ groups.flatMap fun r => sortVersions r.2) w' := by
  induction groups generalizing done w report with
  | nil => exact ⟨w, rfl, by rwa [List.flatMap_nil, List.append_nil]⟩
  | cons r groups ih =>
    obtain ⟨key, versions⟩ := r
    have hversions : versions = (handleListAllManifestsInBucket w₀.db bucket).filter fun m => m.key.key = key :=
      hgroups _ (List.mem_cons_self ..)
    have hms : ∀ m ∈ sortVersions versions, Stored w₀.db m ∧ m.key.bucket = bucket ∧ m.key.key = key := by
      intro m hm
      have hin := (List.perm_insertionSort _ _).mem_iff.mp hm
      rw [hversions] at hin
      obtain ⟨hlisted, hkey⟩ := List.mem_filter.mp hin
      obtain ⟨hstored, hbucket⟩ := (mem_listAll_iff hw).mp hlisted
      exact ⟨hstored, hbucket, of_decide_eq_true hkey⟩
    rw [List.flatMap_cons, ← List.append_assoc] at hnodup
    obtain ⟨w₁, hrun, hswept⟩ := evaluateAll_replay hw hcfg hne hms (List.nodup_append.mp hnodup).1 h report
    obtain ⟨w₂, hrun', hswept'⟩ := ih (fun x hx => hgroups x (List.mem_cons_of_mem _ hx)) hnodup hswept _
    rw [List.flatMap_cons, ← List.append_assoc, List.foldl_append]
    refine ⟨w₂, ?_, hswept'⟩
    rw [sweepCurrent_group, ← hversions] at hrun
    rw [sweepKeys, Handler.run_bind, hrun]
    exact hrun'

theorem listAll_sorted {db : Db} (hdb : WellKeyed db) (bucket : Str) :
    (handleListAllManifestsInBucket db bucket).Pairwise fun a b => a.key.encode < b.key.encode := by
  refine List.Pairwise.filter _ (List.pairwise_map.mpr ((Table.range_sorted _ _ _).imp_of_mem fun ha hb hab => ?_))
  rw [← (hdb _ (Table.mem_range.mp ha).1).1, ← (hdb _ (Table.mem_range.mp hb).1).1]
  exact hab

/-- A bucket whose rows are unchanged is listed as before. -/
theorem listAll_eq {db db' : Db} (hdb : WellKeyed db) (hdb' : WellKeyed db')
    (h : ∀ m, m.key.bucket = bucket → (Stored db m ↔ Stored db' m)) :
    handleListAllManifestsInBucket db bucket = handleListAllManifestsInBucket db' bucket := by
  have hirrefl : Std.Irrefl fun a b : Manifest => a.key.encode < b.key.encode := ⟨fun _ => lt_irrefl _⟩
  have hasymm : Std.Antisymm fun a b : Manifest => a.key.encode < b.key.encode := ⟨fun _ _ h h' => absurd h' (lt_asymm h)⟩
  refine (listAll_sorted hdb bucket).eq_of_mem_iff (listAll_sorted hdb' bucket) fun m => ?_
  rw [mem_listAll_iff hdb, mem_listAll_iff hdb']
  exact and_congr_left fun hb => h m hb

/-- The manifests the sweep looks at in one bucket, in its order. -/
def evaluatedIn (db : Db) (bucket : Str) : List Manifest :=
  ((handleListAllManifestsInBucket db bucket).foldl pushVersion .empty).rows.flatMap fun r => sortVersions r.2

/-- Those in all buckets with an enabled rule. -/
def evaluated (db : Db) (buckets : List (Str × BucketConfig)) : List Manifest :=
  buckets.flatMap fun b => if activeRules b.2 = [] then [] else evaluatedIn db b.1

theorem mem_evaluatedIn {db : Db} (hdb : WellKeyed db) : m ∈ evaluatedIn db bucket ↔ Stored db m ∧ m.key.bucket = bucket := by
  rw [evaluatedIn, List.mem_flatMap, ← mem_listAll_iff hdb]
  have hsorted : ∀ ms : List Manifest, m ∈ sortVersions ms ↔ m ∈ ms := fun ms => (List.perm_insertionSort _ _).mem_iff
  constructor
  · intro h
    obtain ⟨r, hr, hm⟩ := h
    rw [hsorted, mem_pushVersion_rows hr] at hm
    exact (List.mem_filter.mp hm).1
  · intro h
    obtain ⟨ms, hms⟩ := Option.isSome_iff_exists.mp
      ((foldl_pushVersion_isSome (handleListAllManifestsInBucket db bucket) .empty m.key.key).mpr (Or.inr ⟨m, h, rfl⟩))
    have hr := Table.mem_rows.mpr hms
    refine ⟨_, hr, ?_⟩
    rw [hsorted, mem_pushVersion_rows hr]
    exact List.mem_filter.mpr ⟨h, decide_eq_true rfl⟩

theorem evaluated_cons (b : Str × BucketConfig) (buckets : List (Str × BucketConfig)) (db : Db) :
    evaluated db (b :: buckets) = (if activeRules b.2 = [] then [] else evaluatedIn db b.1) ++ evaluated db buckets :=
  List.flatMap_cons

/-- The listing of a bucket that was not looked at yet. -/
theorem Replayed.listAll (huuid : ∀ n, w₀.uuids ≤ n → NulFree (env.uuid n)) (hw : WellKeyed w₀.db) (h : Replayed env now w₀ done w)
    (hfar : ∀ m ∈ done, m.key.bucket ≠ bucket) :
    handleListAllManifestsInBucket w.db bucket = handleListAllManifestsInBucket w₀.db bucket := by
  have hkeyed := h.wellKeyed huuid hw
  have hget : ∀ m : Manifest, m.key.NulFree → m.key.bucket = bucket →
      w.db.objects.get m.key.encode = w₀.db.objects.get m.key.encode := by
    intro m hm hb
    rw [h.objects]
    exact replay_far huuid (fun x hx => (h.seen x hx).nulFree hw) hm fun x hx he => hfar x hx (he.1.trans hb)
  refine listAll_eq hkeyed hw fun m hb => ⟨fun hm => ?_, fun hm => ?_⟩
  · exact (hget m (hm.nulFree hkeyed) hb).symm.trans hm
  · exact (hget m (hm.nulFree hw) hb).trans hm

theorem sweepBuckets_replay (huuid : ∀ n, w₀.uuids ≤ n → NulFree (env.uuid n)) (hw : WellKeyed w₀.db) {buckets : List (Str × BucketConfig)}
    (hrows : ∀ b ∈ buckets, b ∈ w₀.db.buckets.rows) (hsorted : buckets.Pairwise fun a b => a.1 < b.1)
    (hfar : ∀ m ∈ done, ∀ b ∈ buckets, m.key.bucket ≠ b.1) (hnodup : (done ++ evaluated w₀.db buckets).Nodup)
    (h : Replayed env now w₀ done w) (report : SweepReport) :
    ∃ w', (sweepBuckets now report buckets).run env w = (.ok ((evaluated w₀.db buckets).foldl (note w₀.db now) report), w') ∧
      Replayed env now w₀ (done ++ evaluated w₀.db buckets) w' := by
  induction buckets generalizing done w report with
  | nil => exact ⟨w, rfl, by rwa [evaluated, List.flatMap_nil, List.append_nil]⟩
  | cons b buckets ih =>
    obtain ⟨name, cfg⟩ := b
    have hcfg : w₀.db.buckets.get name = some cfg := Table.mem_rows.mp (hrows _ (List.mem_cons_self ..))
    obtain ⟨hfirst, hsorted⟩ := List.pairwise_cons.mp hsorted
    have hrows' := fun x hx => hrows x (List.mem_cons_of_mem _ hx)
    have hfar' : ∀ m ∈ done, ∀ x ∈ buckets, m.key.bucket ≠ x.1 := fun m hm x hx => hfar m hm x (List.mem_cons_of_mem _ hx)
    rw [evaluated_cons] at hnodup ⊢
    by_cases hne : activeRules cfg = []
    · rw [if_pos hne, List.nil_append] at hnodup ⊢
      rw [sweepBuckets, show cfg.lifecycleRules.filter (fun r => r.status = .enabled) = [] from hne, if_pos rfl]
      exact ih hrows' hsorted hfar' hnodup h report
    rw [if_neg hne, ← List.append_assoc] at hnodup
    rw [if_neg hne, ← List.append_assoc, List.foldl_append]
    have hlist : handleListAllManifestsInBucket w.db name = handleListAllManifestsInBucket w₀.db name :=
      h.listAll huuid hw fun m hm => hfar m hm _ (List.mem_cons_self ..)
    let w₁ : World := { w with clock := w.clock + 2 }
    have hswept₁ : Replayed env now w₀ done w₁ := ⟨h.seen, h.rows, h.buckets, h.dlq, h.files⟩
    have hexec : exec env (.metaOp (.listAllManifestsInBucket name)) w = (handleListAllManifestsInBucket w₀.db name, w₁) := by
      rw [← hlist]
      rfl
    obtain ⟨w₂, hrun, hswept₂⟩ := sweepKeys_replay hw hcfg hne (fun r hr => mem_pushVersion_rows hr)
      (List.nodup_append.mp hnodup).1 hswept₁ report
    have hfar₂ : ∀ m ∈ done ++ evaluatedIn w₀.db name, ∀ x ∈ buckets, m.key.bucket ≠ x.1 := by
      intro m hm x hx
      rcases List.mem_append.mp hm with hin | hin
      · exact hfar' m hin x hx
      · rw [((mem_evaluatedIn hw).mp hin).2]
        exact (hfirst x hx).ne
    obtain ⟨w₃, hrun', hswept₃⟩ := ih hrows' hsorted hfar₂ hnodup hswept₂
      ((evaluatedIn w₀.db name).foldl (note w₀.db now) report)
    refine ⟨w₃, ?_, hswept₃⟩
    have hkeys : (sweepKeys name cfg.versioning (cfg.lifecycleRules.filter fun r => r.status = .enabled) now report
        ((handleListAllManifestsInBucket w₀.db name).foldl pushVersion .empty).rows).run env w₁ =
          (.ok ((evaluatedIn w₀.db name).foldl (note w₀.db now) report), w₂) := hrun
    rw [sweepBuckets, if_neg (show ¬ cfg.lifecycleRules.filter (fun r => r.status = .enabled) = [] from hne)]
    refine (run_op_bind env hexec).trans ?_
    rw [Handler.run_bind, hkeys]
    exact hrun'

/-! ## The whole sweep -/

theorem mem_ruledBucket {db : Db} (hdb : WellKeyed db) (b : Str × BucketConfig) :
    m ∈ (if activeRules b.2 = [] then [] else evaluatedIn db b.1) ↔ activeRules b.2 ≠ [] ∧ Stored db m ∧ m.key.bucket = b.1 := by
  by_cases hne : activeRules b.2 = []
  · simp [hne]
  · rw [if_neg hne, mem_evaluatedIn hdb]
    simp [hne]

theorem mem_evaluated {db : Db} (hdb : WellKeyed db) :
    m ∈ evaluated db db.buckets.rows ↔ Stored db m ∧ bucketRules db m.key.bucket ≠ [] := by
  simp only [evaluated, List.mem_flatMap, mem_ruledBucket hdb]
  constructor
  · intro h
    obtain ⟨⟨name, cfg⟩, hrow, hne, hm, hb⟩ := h
    refine ⟨hm, ?_⟩
    rw [bucketRules, hb, Table.mem_rows.mp hrow]
    exact hne
  · intro h
    obtain ⟨hm, hne⟩ := h
    cases hcfg : db.buckets.get m.key.bucket with
    | none =>
      rw [bucketRules, hcfg] at hne
      exact absurd rfl hne
    | some cfg =>
      rw [bucketRules, hcfg] at hne
      exact ⟨(m.key.bucket, cfg), Table.mem_rows.mpr hcfg, hne, hm, rfl⟩

theorem evaluated_nodup {db : Db} (hdb : WellKeyed db) : (evaluated db db.buckets.rows).Nodup := by
  have hbucket : ∀ b, (evaluatedIn db b).Nodup := by
    intro b
    have hlist : (handleListAllManifestsInBucket db b).Nodup :=
      (listAll_sorted hdb b).imp fun h e => absurd (e ▸ h) (lt_irrefl _)
    refine List.nodup_flatMap.mpr ⟨fun r hr => ?_, (Table.sorted _).imp_of_mem fun hr hr' hlt => ?_⟩
    · rw [mem_pushVersion_rows hr]
      exact (List.perm_insertionSort _ _).nodup_iff.mpr (hlist.filter _)
    · -- two groups are of two keys
      intro m hm hm'
      have h := (List.perm_insertionSort _ _).mem_iff.mp hm
      have h' := (List.perm_insertionSort _ _).mem_iff.mp hm'
      rw [mem_pushVersion_rows hr] at h
      rw [mem_pushVersion_rows hr'] at h'
      have e := of_decide_eq_true (List.mem_filter.mp h).2
      have e' := of_decide_eq_true (List.mem_filter.mp h').2
      exact hlt.ne (e.symm.trans e')
  refine List.nodup_flatMap.mpr ⟨fun b _ => ?_, db.buckets.sorted.imp fun hlt => ?_⟩
  · split
    · exact List.nodup_nil
    · exact hbucket b.1
  · intro m hm hm'
    exact hlt.ne (((mem_ruledBucket hdb _).mp hm).2.2.symm.trans ((mem_ruledBucket hdb _).mp hm').2.2)

/-- The sweep fails on no store. -/
theorem sweepLifecycle_replay (now : Time) (huuid : ∀ n, w.uuids ≤ n → NulFree (env.uuid n)) (hw : WellKeyed w.db) :
    ∃ w', (sweepLifecycleAt now).run env w =
        (.ok ((evaluated w.db w.db.buckets.rows).foldl (note w.db now) ⟨0, 0, 0, 0⟩), w') ∧
      Replayed env now w (evaluated w.db w.db.buckets.rows) w' := by
  let w₁ : World := { w with clock := w.clock + 2 }
  have hexec : exec env (.metaOp .listBuckets) w = (w.db.buckets.rows, w₁) := rfl
  obtain ⟨w', hrun, hswept⟩ := sweepBuckets_replay huuid hw (fun b hb => hb) w.db.buckets.sorted
    (fun m hm => absurd hm List.not_mem_nil) (by rw [List.nil_append]; exact evaluated_nodup hw)
    (show Replayed env now w [] w₁ from ⟨fun m hm => absurd hm List.not_mem_nil, rfl, rfl, rfl, rfl⟩) ⟨0, 0, 0, 0⟩
  rw [List.nil_append] at hswept
  exact ⟨w', (run_op_bind env hexec).trans hrun, hswept⟩

/-! ## The report -/

/-- A counter of the report. -/
theorem foldl_note_count {db : Db} {p : Manifest → Bool} {count : SweepReport → Nat} {ms : List Manifest}
    (hstep : ∀ m ∈ ms, ∀ r, count (note db now r m) = if p m then countUp (count r) else count r) (r : SweepReport)
    (hr : count r < 2 ^ 32) : count (ms.foldl (note db now) r) = (count r + ms.countP p) % 2 ^ 32 := by
  induction ms generalizing r with
  | nil => rw [List.foldl_nil, List.countP_nil, Nat.add_zero, Nat.mod_eq_of_lt hr]
  | cons m ms ih =>
    have hm := hstep m (List.mem_cons_self ..) r
    have hlt : count (note db now r m) < 2 ^ 32 := by
      rw [hm]
      split
      · exact Nat.mod_lt _ (by omega)
      · exact hr
    rw [List.foldl_cons, ih (fun x hx => hstep x (List.mem_cons_of_mem _ hx)) _ hlt, hm, List.countP_cons]
    cases p m with
    | true =>
      show (countUp (count r) + ms.countP p) % 2 ^ 32 = (count r + (ms.countP p + 1)) % 2 ^ 32
      rw [countUp, Nat.mod_add_mod]
      congr 1
      omega
    | false => rfl

/-- What is due is counted once, in whatever order the sweep comes to it. -/
theorem countP_evaluated {db : Db} (hdb : WellKeyed db) {p : Manifest → Bool}
    (hp : ∀ m, Stored db m → p m = true → bucketRules db m.key.bucket ≠ []) :
    (evaluated db db.buckets.rows).countP p = db.objects.rows.countP fun r => p r.2 := by
  have hmap : (db.objects.rows.countP fun r => p r.2) = (db.objects.rows.map (·.2)).countP p := by
    rw [List.countP_map]
    rfl
  rw [hmap, List.countP_eq_length_filter, List.countP_eq_length_filter]
  refine List.Perm.length_eq ((List.perm_ext_iff_of_nodup ((evaluated_nodup hdb).filter _) ((rows_nodup hdb).filter _)).mpr
    fun m => ?_)
  rw [List.mem_filter, List.mem_filter, mem_evaluated hdb, stored_iff hdb]
  constructor
  · intro h
    obtain ⟨⟨⟨k, hk⟩, -⟩, hpm⟩ := h
    exact ⟨List.mem_map.mpr ⟨_, hk, rfl⟩, hpm⟩
  · intro h
    obtain ⟨hm, hpm⟩ := h
    obtain ⟨⟨k, m⟩, hk, rfl⟩ := List.mem_map.mp hm
    exact ⟨⟨⟨k, hk⟩, hp _ ((stored_iff hdb).mpr ⟨k, hk⟩) hpm⟩, hpm⟩

/-- A counter that goes up with one action ends as the number of rows it is taken on. -/
theorem counted (hw : WellKeyed w.db) {p : Manifest → Bool} {count : SweepReport → Nat} {action : LifecycleAction}
    (hp : ∀ m, Stored w.db m → (sweepAction w.db now m = action ↔ p m = true)) (hne : action ≠ .keep)
    (hnote : ∀ m r, count (note w.db now r m) = if sweepAction w.db now m = action then countUp (count r) else count r)
    (hstart : count ⟨0, 0, 0, 0⟩ = 0) :
    count ((evaluated w.db w.db.buckets.rows).foldl (note w.db now) ⟨0, 0, 0, 0⟩) =
      (w.db.objects.rows.countP fun r => p r.2) % 2 ^ 32 := by
  have hstep : ∀ m ∈ evaluated w.db w.db.buckets.rows, ∀ r,
      count (note w.db now r m) = if p m then countUp (count r) else count r := by
    intro m hm r
    rw [hnote]
    exact if_congr (hp m ((mem_evaluated hw).mp hm).1) rfl rfl
  have hrules : ∀ m, Stored w.db m → p m = true → bucketRules w.db m.key.bucket ≠ [] := by
    intro m hm hpm
    have hact := (hp m hm).mpr hpm
    exact sweepAction_rules fun hkeep => hne (hact.symm.trans hkeep)
  rw [foldl_note_count hstep ⟨0, 0, 0, 0⟩ (by rw [hstart]; decide), hstart, Nat.zero_add, countP_evaluated hw hrules]

/-- The versions that expired, in 32 bits. -/
theorem counted_expired (hw : WellKeyed w.db) :
    ((evaluated w.db w.db.buckets.rows).foldl (note w.db now) ⟨0, 0, 0, 0⟩).expiredCurrent =
      (w.db.objects.rows.countP fun r => expiryDue w.db now r.2) % 2 ^ 32 :=
  counted hw (fun _ hm => sweepAction_expire hw hm) LifecycleAction.noConfusion
    (fun m r => by cases ha : sweepAction w.db now m <;> simp [note, ha]) rfl

end

end S3lite
