/-
  S3lite.Lifecycle.Sweep — the net effect of the lifecycle sweep.

  The sweep lists a bucket and then works through the list, each action a change of the store
  it listed. No action disturbs a later one: each is about one row of its own, a marker comes
  under a fresh id, and a bucket is listed before its own rows change (`SweptOver`).
  - `evaluateManifest_run`, …, `sweepLifecycle_run`: the loops, from the inside out.
  - `sweep_effect`: what the sweep leaves, row by row, and what it reports.
  - `a_report_wraps`: the report counts in 32 bits.
-/
import S3lite.Lifecycle.Replay

namespace S3lite

open Handler

/-! ## The state in the middle of a sweep -/

/-- The delete markers put over the manifests seen so far. -/
def markers (env : Env) (w₀ : World) (now : Time) (done : List Manifest) : List Manifest :=
  ((done.filter (marks w₀.db now)).zipIdx w₀.uuids).map fun r => tombstone ⟨r.1.key.bucket, r.1.key.key, env.uuid r.2⟩ now

/-- What the sweep may be started on: buckets that never suspended versioning, ids that no
    version has, and a time after every change. -/
structure SweepReady (env : Env) (now : Time) (w : World) : Prop where
  wellKeyed : WellKeyed w.db
  versioning : ∀ bucket cfg, w.db.buckets.get bucket = some cfg → cfg.versioning = .off ∨ cfg.versioning = .enabled
  fresh : ∀ n, w.uuids ≤ n → NulFree (env.uuid n) ∧ ∀ m, Stored w.db m → m.key.versionId ≠ env.uuid n
  later : ∀ m, Stored w.db m → m.lastModified < now

/-- The store once the sweep has seen the manifests `done` of the store it began with. -/
structure SweptOver (env : Env) (now : Time) (w₀ : World) (done : List Manifest) (w : World) : Prop where
  seen : ∀ m ∈ done, Stored w₀.db m
  wellKeyed : WellKeyed w.db
  buckets : w.db.buckets = w₀.db.buckets
  dlq : w.db.eventsDlq = w₀.db.eventsDlq
  files : w.files = w₀.files
  uuids : w.uuids = w₀.uuids + (done.filter (marks w₀.db now)).length
  rows : ∀ m, Stored w.db m ↔
    Stored w₀.db m ∧ ¬ (m ∈ done ∧ removes w₀.db now m = true) ∨ m ∈ markers env w₀ now done

section
variable {env : Env} {now : Time} {w₀ w w' : World} {done : List Manifest} {m : Manifest}

theorem mem_markers_iff {t : Manifest} : t ∈ markers env w₀ now done ↔ ∃ i cur, (done.filter (marks w₀.db now))[i]? = some cur ∧
    t = tombstone ⟨cur.key.bucket, cur.key.key, env.uuid (w₀.uuids + i)⟩ now := by
  rw [markers, List.mem_map]
  constructor
  · intro h
    obtain ⟨⟨cur, n⟩, hr, rfl⟩ := h
    obtain ⟨hn, hget⟩ := List.mk_mem_zipIdx_iff_le_and_getElem?_sub.mp hr
    exact ⟨n - w₀.uuids, cur, hget, by rw [Nat.add_sub_cancel' hn]⟩
  · intro h
    obtain ⟨i, cur, hget, rfl⟩ := h
    exact ⟨(cur, w₀.uuids + i), List.mk_add_mem_zipIdx_iff_getElem?.mpr hget, rfl⟩

theorem mem_markers {t : Manifest} (h : t ∈ markers env w₀ now done) :
    ∃ cur ∈ done, marks w₀.db now cur = true ∧ ∃ n, w₀.uuids ≤ n ∧ t = tombstone ⟨cur.key.bucket, cur.key.key, env.uuid n⟩ now := by
  obtain ⟨i, cur, hget, rfl⟩ := mem_markers_iff.mp h
  obtain ⟨hdone, hmarks⟩ := List.mem_filter.mp (List.mem_of_getElem? hget)
  exact ⟨cur, hdone, hmarks, w₀.uuids + i, Nat.le_add_right _ _, rfl⟩

theorem markers_append (ms : List Manifest) : markers env w₀ now (done ++ ms) = markers env w₀ now done ++
    ((ms.filter (marks w₀.db now)).zipIdx (w₀.uuids + (done.filter (marks w₀.db now)).length)).map fun r =>
      tombstone ⟨r.1.key.bucket, r.1.key.key, env.uuid r.2⟩ now := by
  unfold markers
  rw [List.filter_append, List.zipIdx_append, List.map_append]

theorem markers_unmarked (h : marks w₀.db now m = false) : markers env w₀ now (done ++ [m]) = markers env w₀ now done := by
  rw [markers_append, List.filter_singleton, h]
  exact List.append_nil _

theorem markers_marked (h : marks w₀.db now m = true) : markers env w₀ now (done ++ [m]) = markers env w₀ now done ++
    [tombstone ⟨m.key.bucket, m.key.key, env.uuid (w₀.uuids + (done.filter (marks w₀.db now)).length)⟩ now] := by
  rw [markers_append, List.filter_singleton, h]
  rfl

theorem length_unmarked (h : marks w₀.db now m = false) :
    ((done ++ [m]).filter (marks w₀.db now)).length = (done.filter (marks w₀.db now)).length := by
  rw [List.filter_append, List.filter_singleton, h]
  simp

theorem length_marked (h : marks w₀.db now m = true) :
    ((done ++ [m]).filter (marks w₀.db now)).length = (done.filter (marks w₀.db now)).length + 1 := by
  rw [List.filter_append, List.filter_singleton, h]
  simp

/-- A marker comes under a key that no manifest had. -/
theorem marker_fresh (hw : SweepReady env now w₀) (hs : ∀ m ∈ done, Stored w₀.db m) {t : Manifest}
    (ht : t ∈ markers env w₀ now done) : t.key.NulFree ∧ ∀ m, Stored w₀.db m → t.key ≠ m.key := by
  obtain ⟨cur, hcur, -, n, hn, rfl⟩ := mem_markers ht
  have hfree := (hs cur hcur).nulFree hw.wellKeyed
  obtain ⟨hid, hnew⟩ := hw.fresh n hn
  refine ⟨⟨hfree.bucket, hfree.key, hid⟩, fun m hm he => ?_⟩
  exact hnew m hm (congrArg ManifestKey.versionId he).symm

theorem SweptOver.start (h : SweepReady env now w₀) (ho : w.db.objects = w₀.db.objects) (hb : w.db.buckets = w₀.db.buckets)
    (hd : w.db.eventsDlq = w₀.db.eventsDlq) (hf : w.files = w₀.files) (hu : w.uuids = w₀.uuids) :
    SweptOver env now w₀ [] w where
  seen := by simp
  wellKeyed := by
    intro r hr
    rw [ho] at hr
    exact h.wellKeyed r hr
  buckets := hb
  dlq := hd
  files := hf
  uuids := hu
  rows x := by simp [Stored, ho, markers]

theorem SweptOver.seen_append (h : SweptOver env now w₀ done w) (hm : Stored w₀.db m) : ∀ x ∈ done ++ [m], Stored w₀.db x := by
  intro x hx
  rcases List.mem_append.mp hx with hx | hx
  · exact h.seen x hx
  · exact List.mem_singleton.mp hx ▸ hm

theorem removed_append (hr : removes w₀.db now m = false) {x : Manifest} :
    x ∈ done ++ [m] ∧ removes w₀.db now x = true ↔ x ∈ done ∧ removes w₀.db now x = true := by
  constructor
  · intro hx
    rcases List.mem_append.mp hx.1 with hin | hin
    · exact ⟨hin, hx.2⟩
    · rw [List.mem_singleton.mp hin, hr] at hx
      exact absurd hx.2 Bool.false_ne_true
  · intro hx
    exact ⟨List.mem_append_left _ hx.1, hx.2⟩

/-- A row nothing is due for. -/
theorem SweptOver.keep (h : SweptOver env now w₀ done w) (hm : Stored w₀.db m) (hr : removes w₀.db now m = false) (hk : marks w₀.db now m = false) :
    SweptOver env now w₀ (done ++ [m]) w where
  seen := h.seen_append hm
  wellKeyed := h.wellKeyed
  buckets := h.buckets
  dlq := h.dlq
  files := h.files
  uuids := by rw [length_unmarked hk, h.uuids]
  rows x := by
    rw [h.rows, removed_append hr, markers_unmarked hk]

/-- The row that is deleted. -/
theorem SweptOver.remove (hw : SweepReady env now w₀) (h : SweptOver env now w₀ done w) (hm : Stored w₀.db m)
    (hr : removes w₀.db now m = true) (hk : marks w₀.db now m = false)
    (ho : w'.db.objects = w.db.objects.erase m.key.encode) (hb : w'.db.buckets = w.db.buckets)
    (hd : w'.db.eventsDlq = w.db.eventsDlq) (hf : w'.files = w.files) (hu : w'.uuids = w.uuids) :
    SweptOver env now w₀ (done ++ [m]) w' where
  seen := h.seen_append hm
  wellKeyed := by
    intro r hrow
    rw [ho] at hrow
    exact h.wellKeyed r (Table.mem_erase.mp hrow).1
  buckets := hb.trans h.buckets
  dlq := hd.trans h.dlq
  files := hf.trans h.files
  uuids := by rw [length_unmarked hk, hu, h.uuids]
  rows x := by
    have hstored : Stored w'.db x ↔ Stored w.db x ∧ x.key.encode ≠ m.key.encode := by
      unfold Stored
      rw [ho, Table.get_erase]
      by_cases he : x.key.encode = m.key.encode <;> simp [he]
    rw [hstored, h.rows, markers_unmarked hk]
    by_cases hx : x ∈ markers env w₀ now done
    · obtain ⟨hfree, hnew⟩ := marker_fresh hw h.seen hx
      exact iff_of_true ⟨Or.inr hx, fun he => hnew m hm
        (ManifestKey.encode_injective hfree (hm.nulFree hw.wellKeyed) he)⟩ (Or.inr hx)
    · simp only [hx, or_false, and_assoc]
      refine and_congr_right fun hxs => ?_
      have hsame : x.key.encode = m.key.encode ↔ x = m := by
        constructor
        · intro he
          exact hm.eq_of_key hxs (ManifestKey.encode_injective (hxs.nulFree hw.wellKeyed) (hm.nulFree hw.wellKeyed) he)
        · intro he
          rw [he]
      rw [Ne, hsame]
      by_cases he : x = m
      · subst he
        simp [hr]
      · simp [he]

theorem marks_current (h : marks w₀.db now m = true) : isCurrent w₀.db m = true :=
  expiryDue_current (Bool.and_eq_true_iff.mp h).1

/-- No row is under the next marker's key: not one from before, nor the marker of another key. -/
theorem SweptOver.vacant (hw : SweepReady env now w₀) (h : SweptOver env now w₀ done w) (hm : Stored w₀.db m) (hnew : m ∉ done)
    (hk : marks w₀.db now m = true) :
    (ManifestKey.mk m.key.bucket m.key.key (env.uuid w.uuids)).NulFree ∧
      w.db.objects.get (ManifestKey.mk m.key.bucket m.key.key (env.uuid w.uuids)).encode = none := by
  have hfree := hm.nulFree hw.wellKeyed
  obtain ⟨hid, hunused⟩ := hw.fresh w.uuids (by rw [h.uuids]; omega)
  refine ⟨⟨hfree.bucket, hfree.key, hid⟩, Table.get_eq_none.mpr fun r hr he => ?_⟩
  obtain ⟨hrow, hrfree⟩ := h.wellKeyed r hr
  have hstored : Stored w.db r.2 := (stored_iff h.wellKeyed).mpr ⟨r.1, hr⟩
  have hkey : r.2.key = ⟨m.key.bucket, m.key.key, env.uuid w.uuids⟩ :=
    ManifestKey.encode_injective hrfree ⟨hfree.bucket, hfree.key, hid⟩ (hrow.symm.trans he)
  rcases (h.rows r.2).mp hstored with ⟨hold, -⟩ | hmarker
  · exact hunused r.2 hold (congrArg ManifestKey.versionId hkey)
  · obtain ⟨cur, hcur, hmark, n, -, e⟩ := mem_markers hmarker
    rw [e] at hkey
    have hbucket := congrArg ManifestKey.bucket hkey
    have hname := congrArg ManifestKey.key hkey
    have hsame := current_unique hw.wellKeyed (h.seen cur hcur) hm (marks_current hmark) (marks_current hk) hbucket hname
    exact hnew (hsame ▸ hcur)

/-- The delete marker that is put. -/
theorem SweptOver.mark (hw : SweepReady env now w₀) (h : SweptOver env now w₀ done w) (hm : Stored w₀.db m) (hnew : m ∉ done)
    (hr : removes w₀.db now m = false) (hk : marks w₀.db now m = true) {t : Manifest}
    (ht : t = tombstone ⟨m.key.bucket, m.key.key, env.uuid w.uuids⟩ now)
    (ho : w'.db.objects = w.db.objects.insert t.key.encode t) (hb : w'.db.buckets = w.db.buckets)
    (hd : w'.db.eventsDlq = w.db.eventsDlq) (hf : w'.files = w.files) (hu : w'.uuids = w.uuids + 1) :
    SweptOver env now w₀ (done ++ [m]) w' := by
  have hmarkers : markers env w₀ now (done ++ [m]) = markers env w₀ now done ++ [t] := by
    rw [markers_marked hk, ← h.uuids, ht]
  have hvacant : t.key.NulFree ∧ w.db.objects.get t.key.encode = none := ht ▸ h.vacant hw hm hnew hk
  refine ⟨h.seen_append hm, ?_, hb.trans h.buckets, hd.trans h.dlq, hf.trans h.files,
    by rw [length_marked hk, hu, h.uuids]; omega, fun x => ?_⟩
  · intro r hrow
    rw [ho] at hrow
    rcases Table.mem_insert.mp hrow with rfl | ⟨hrow, -⟩
    · exact ⟨rfl, hvacant.1⟩
    · exact h.wellKeyed r hrow
  · have hstored : Stored w'.db x ↔ Stored w.db x ∨ x = t := by
      unfold Stored
      rw [ho, Table.get_insert]
      by_cases he : x.key.encode = t.key.encode
      · rw [if_pos he, he, hvacant.2]
        simp [eq_comm]
      · have hne : x ≠ t := fun e => he (by rw [e])
        simp [he, hne]
    rw [hstored, h.rows, removed_append hr, hmarkers, List.mem_append, List.mem_singleton, or_assoc]

/-- Replaying the actions leaves what they are to leave. -/
theorem SweptOver.of_replayed (hw : SweepReady env now w₀) (hnodup : done.Nodup) (h : Replayed env now w₀ done w) :
    SweptOver env now w₀ done w := by
  induction done using List.reverseRecOn generalizing w with
  | nil =>
    have hrows : (w.db.objects, w.uuids) = (w₀.db.objects, w₀.uuids) := h.rows
    obtain ⟨ho, hu⟩ := Prod.mk.inj hrows
    exact SweptOver.start hw ho h.buckets h.dlq h.files hu
  | append_singleton done m ih =>
    have hm : Stored w₀.db m := h.seen m (List.mem_append_right _ (List.mem_singleton_self m))
    have hnew : m ∉ done := fun hin => (List.nodup_append.mp hnodup).2.2 m hin m (List.mem_singleton_self m) rfl
    -- the store before the last action
    let s := replay env w₀.db now done (w₀.db.objects, w₀.uuids)
    let w₁ : World := { w with db := { w.db with objects := s.1 }, uuids := s.2 }
    have hswept : SweptOver env now w₀ done w₁ := ih (List.nodup_append.mp hnodup).1
      ⟨fun x hx => h.seen x (List.mem_append_left _ hx), rfl, h.buckets, h.dlq, h.files⟩
    have hlast : (w.db.objects, w.uuids) = replayOne env w₀.db now s m := by
      rw [h.rows, replay_snoc]
    have hremoves : removes w₀.db now m = _ := removes_eq hw.wellKeyed hm
    have hmarks : marks w₀.db now m = _ := marks_eq hw.wellKeyed hm
    have hgone : replayOne env w₀.db now s m = (s.1.erase m.key.encode, s.2) → removes w₀.db now m = true →
        marks w₀.db now m = false → SweptOver env now w₀ (done ++ [m]) w := by
      intro hact hr hk
      rw [hact] at hlast
      obtain ⟨ho, hu⟩ := Prod.mk.inj hlast
      exact hswept.remove hw hm hr hk ho rfl rfl rfl hu
    cases hact : sweepAction w₀.db now m <;> rw [hact] at hremoves hmarks
    case keep =>
      simp only [replayOne, hact] at hlast
      have hsame : w₁ = w := by
        show ({ w with db := { w.db with objects := s.1 }, uuids := s.2 } : World) = w
        rw [← hlast]
      exact hsame ▸ hswept.keep hm hremoves hmarks
    case abortUpload => exact hgone (by simp only [replayOne, hact]) hremoves hmarks
    case expireNoncurrent => exact hgone (by simp only [replayOne, hact]) hremoves hmarks
    case expireCurrent =>
      obtain ⟨cfg, hcfg⟩ : ∃ cfg, w₀.db.buckets.get m.key.bucket = some cfg := by
        cases hcfg : w₀.db.buckets.get m.key.bucket with
        | some cfg => exact ⟨cfg, rfl⟩
        | none =>
          have hrules : bucketRules w₀.db m.key.bucket = [] := by rw [bucketRules, hcfg]; rfl
          rw [sweepAction, if_pos hrules] at hact
          cases hact
      have hversioning : versioningOf w₀.db m.key.bucket = some cfg.versioning := by rw [versioningOf, hcfg]; rfl
      rw [hversioning] at hremoves hmarks
      rcases hw.versioning _ _ hcfg with hv | hv <;> rw [hv] at hversioning hremoves hmarks
      · exact hgone (by simp only [replayOne, hact, hversioning]) hremoves hmarks
      · simp only [replayOne, hact, hversioning] at hlast
        obtain ⟨ho, hu⟩ := Prod.mk.inj hlast
        exact hswept.mark hw hm hnew hremoves hmarks rfl ho rfl rfl rfl hu

end

/-! ## The whole sweep -/

section
variable {env : Env} {now : Time} {w : World}

theorem sweepLifecycle_run (hw : SweepReady env now w) :
    ∃ w', (sweepLifecycleAt now).run env w =
        (.ok ((evaluated w.db w.db.buckets.rows).foldl (note w.db now) ⟨0, 0, 0, 0⟩), w') ∧
      SweptOver env now w (evaluated w.db w.db.buckets.rows) w' := by
  obtain ⟨w', hrun, hreplayed⟩ := sweepLifecycle_replay now (fun n hn => (hw.fresh n hn).1) hw.wellKeyed
  exact ⟨w', hrun, SweptOver.of_replayed hw (evaluated_nodup hw.wellKeyed) hreplayed⟩

end

/-- A row that was not there. -/
def Added (db db' : Db) (m : Manifest) : Prop := Stored db' m ∧ db.objects.get m.key.encode = none

/-- What the sweep leaves of the rows, and what it reports. -/
structure SweepEffect (now : Time) (w w' : World) (report : SweepReport) : Prop where
  kept : ∀ m, Stored w.db m → removes w.db now m = false → Stored w'.db m
  removed : ∀ m, Stored w.db m → removes w.db now m = true → w'.db.objects.get m.key.encode = none
  /-- One delete marker is added over an expired object … -/
  marked : ∀ m, Stored w.db m → marks w.db now m = true →
    ∃! t, Added w.db w'.db t ∧ t.key.bucket = m.key.bucket ∧ t.key.key = m.key.key
  /-- … which becomes the latest version, and nothing else is. -/
  added : ∀ t, Added w.db w'.db t → ∃ m, Stored w.db m ∧ marks w.db now m = true ∧
    t = tombstone ⟨m.key.bucket, m.key.key, t.key.versionId⟩ now ∧
    handleGetLatestVersion w'.db m.key.bucket m.key.key = some t
  buckets : w'.db.buckets = w.db.buckets
  dlq : w'.db.eventsDlq = w.db.eventsDlq
  files : w'.files = w.files
  expiredCurrent : report.expiredCurrent = (w.db.objects.rows.countP fun r => expiryDue w.db now r.2) % 2 ^ 32
  expiredNoncurrent : report.expiredNoncurrent = (w.db.objects.rows.countP fun r => noncurrentDue w.db now r.2) % 2 ^ 32
  abortedMultipart : report.abortedMultipart = (w.db.objects.rows.countP fun r => abortDue w.db now r.2) % 2 ^ 32

section
variable {env : Env} {now : Time} {w w' : World}

/-- The markers of a sweep over every manifest. -/
theorem mem_all_markers (hw : SweepReady env now w) {t : Manifest} (ht : t ∈ markers env w now (evaluated w.db w.db.buckets.rows)) :
    ∃ cur, Stored w.db cur ∧ marks w.db now cur = true ∧ t = tombstone ⟨cur.key.bucket, cur.key.key, t.key.versionId⟩ now := by
  obtain ⟨cur, hcur, hmark, n, -, rfl⟩ := mem_markers ht
  exact ⟨cur, ((mem_evaluated hw.wellKeyed).mp hcur).1, hmark, rfl⟩

theorem added_iff (hw : SweepReady env now w) (h : SweptOver env now w (evaluated w.db w.db.buckets.rows) w') {t : Manifest} :
    Added w.db w'.db t ↔ t ∈ markers env w now (evaluated w.db w.db.buckets.rows) := by
  constructor
  · intro ha
    obtain ⟨hstored, hnone⟩ := ha
    rcases (h.rows t).mp hstored with ⟨hold, -⟩ | ht
    · rw [show w.db.objects.get t.key.encode = some t from hold] at hnone
      cases hnone
    · exact ht
  · intro ht
    refine ⟨(h.rows t).mpr (Or.inr ht), Table.get_eq_none.mpr fun r hr he => ?_⟩
    obtain ⟨hfree, hnew⟩ := marker_fresh hw h.seen ht
    obtain ⟨hrow, hrfree⟩ := hw.wellKeyed r hr
    exact hnew r.2 ((stored_iff hw.wellKeyed).mpr ⟨r.1, hr⟩)
      (ManifestKey.encode_injective hfree hrfree (he.symm.trans hrow))

/-- Each expired object has one marker. -/
theorem exists_marker (env : Env) {done : List Manifest} {m : Manifest} (hm : m ∈ done) (hk : marks w.db now m = true) :
    ∃ t ∈ markers env w now done, t.key.bucket = m.key.bucket ∧ t.key.key = m.key.key := by
  obtain ⟨i, hget⟩ := List.getElem?_of_mem (List.mem_filter.mpr ⟨hm, hk⟩)
  exact ⟨_, mem_markers_iff.mpr ⟨i, m, hget, rfl⟩, rfl, rfl⟩

theorem marker_unique (hw : SweepReady env now w) {done : List Manifest} (hs : ∀ m ∈ done, Stored w.db m) (hnodup : done.Nodup)
    {t t' : Manifest} (ht : t ∈ markers env w now done) (ht' : t' ∈ markers env w now done)
    (hbucket : t.key.bucket = t'.key.bucket) (hkey : t.key.key = t'.key.key) : t = t' := by
  obtain ⟨i, cur, hget, rfl⟩ := mem_markers_iff.mp ht
  obtain ⟨i', cur', hget', rfl⟩ := mem_markers_iff.mp ht'
  obtain ⟨hmem, hmark⟩ := List.mem_filter.mp (List.mem_of_getElem? hget)
  obtain ⟨hmem', hmark'⟩ := List.mem_filter.mp (List.mem_of_getElem? hget')
  have hcur : cur = cur' := current_unique hw.wellKeyed (hs cur hmem) (hs cur' hmem') (marks_current hmark) (marks_current hmark') hbucket hkey
  subst hcur
  obtain ⟨hi, e⟩ := List.getElem?_eq_some_iff.mp hget
  have hindex : i = i' := (List.getElem?_inj hi (hnodup.filter _)).mp (hget.trans hget'.symm)
  rw [hindex]

/-- A marker of the sweep is newer than every other version of its key. -/
theorem marker_latest (hw : SweepReady env now w) (h : SweptOver env now w (evaluated w.db w.db.buckets.rows) w') {t : Manifest}
    (ht : t ∈ markers env w now (evaluated w.db w.db.buckets.rows)) :
    handleGetLatestVersion w'.db t.key.bucket t.key.key = some t := by
  obtain ⟨cur, -, -, n, -, e⟩ := mem_markers ht
  have hstored : Stored w'.db t := (h.rows t).mpr (Or.inr ht)
  rw [get_latest_eq h.wellKeyed]
  refine foldl_takeLatest_newest (mem_versionsOf.mpr ⟨⟨_, hstored.row⟩, by rw [e]; rfl, rfl, rfl⟩) fun x hx hne => ?_
  obtain ⟨hrow, -, hbucket, hkey⟩ := mem_versionsOf.mp hx
  rcases (h.rows x).mp ((stored_iff h.wellKeyed).mpr hrow) with ⟨hold, -⟩ | hmarker
  · have hnow : t.lastModified = now := by rw [e]; rfl
    rw [hnow]
    exact hw.later x hold
  · exact absurd (marker_unique hw h.seen (evaluated_nodup hw.wellKeyed) hmarker ht hbucket hkey) hne

theorem SweptOver.effect (hw : SweepReady env now w) (h : SweptOver env now w (evaluated w.db w.db.buckets.rows) w') :
    SweepEffect now w w' ((evaluated w.db w.db.buckets.rows).foldl (note w.db now) ⟨0, 0, 0, 0⟩) where
  kept m hm hr := by
    refine (h.rows m).mpr (Or.inl ⟨hm, fun hx => ?_⟩)
    rw [hr] at hx
    exact absurd hx.2 Bool.false_ne_true
  removed m hm hr := by
    refine Table.get_eq_none.mpr fun r hrow he => ?_
    obtain ⟨hkey, hfree⟩ := h.wellKeyed r hrow
    have hsame : r.2.key = m.key := ManifestKey.encode_injective hfree (hm.nulFree hw.wellKeyed) (hkey.symm.trans he)
    rcases (h.rows r.2).mp ((stored_iff h.wellKeyed).mpr ⟨r.1, hrow⟩) with ⟨hold, hnot⟩ | hmarker
    · rw [hm.eq_of_key hold hsame] at hnot
      exact hnot ⟨(mem_evaluated hw.wellKeyed).mpr ⟨hm, removes_rules hw.wellKeyed hm hr⟩, hr⟩
    · exact (marker_fresh hw h.seen hmarker).2 m hm hsame
  marked m hm hk := by
    obtain ⟨t, ht, hbucket, hkey⟩ := exists_marker env
      ((mem_evaluated hw.wellKeyed).mpr ⟨hm, marks_rules hw.wellKeyed hm hk⟩) hk
    refine ⟨t, ⟨(added_iff hw h).mpr ht, hbucket, hkey⟩, fun t' ht' => ?_⟩
    exact marker_unique hw h.seen (evaluated_nodup hw.wellKeyed) ((added_iff hw h).mp ht'.1) ht
      (ht'.2.1.trans hbucket.symm) (ht'.2.2.trans hkey.symm)
  added t ha := by
    have ht := (added_iff hw h).mp ha
    obtain ⟨cur, hcur, hmark, e⟩ := mem_all_markers hw ht
    have hlatest := marker_latest hw h ht
    have hbucket : t.key.bucket = cur.key.bucket := congrArg (·.key.bucket) e
    have hkey : t.key.key = cur.key.key := congrArg (·.key.key) e
    rw [hbucket, hkey] at hlatest
    exact ⟨cur, hcur, hmark, e, hlatest⟩
  buckets := h.buckets
  dlq := h.dlq
  files := h.files
  expiredCurrent := counted_expired hw.wellKeyed
  expiredNoncurrent := counted hw.wellKeyed (fun _ hm => sweepAction_noncurrent hw.wellKeyed hm) LifecycleAction.noConfusion
    (fun m r => by cases ha : sweepAction w.db now m <;> simp [note, ha]) rfl
  abortedMultipart := counted hw.wellKeyed (fun _ hm => sweepAction_abort hw.wellKeyed hm) LifecycleAction.noConfusion
    (fun m r => by cases ha : sweepAction w.db now m <;> simp [note, ha]) rfl

/-- The exact effect of a sweep run alone. -/
theorem sweep_effect (hw : SweepReady env now w) :
    ∃ report w', (sweepLifecycleAt now).run env w = (.ok report, w') ∧ SweepEffect now w w' report := by
  obtain ⟨w', hrun, hswept⟩ := sweepLifecycle_run hw
  exact ⟨_, w', hrun, hswept.effect hw⟩

end

/-! ## Runs of the sweep -/

/-- A bucket `b` in which every object expires after a day. -/
def dailyBucket (versioning : VersioningState) : Buckets :=
  Table.empty.insert [98] ⟨0, versioning, [], [], none, [⟨none, .enabled, none, some 1, none, none⟩]⟩

/-- The given rows of that bucket. -/
def dailyWorld (versioning : VersioningState) (ms : List Manifest) : World :=
  ⟨{ dbOf ms with buckets := dailyBucket versioning }, .empty, 0, 0⟩

theorem mem_dbOf {ms : List Manifest} {r : Bytes × Manifest} (h : r ∈ (dbOf ms).objects.rows) : r.2 ∈ ms := by
  have hfold : ∀ (ms : List Manifest) (objects : Objects),
      r ∈ (ms.foldl (fun objects m => objects.insert m.key.encode m) objects).rows → r.2 ∈ ms ∨ r ∈ objects.rows := by
    intro ms
    induction ms with
    | nil => exact fun _ h => Or.inr h
    | cons m ms ih =>
      intro objects h
      rcases ih _ h with h | h
      · exact Or.inl (List.mem_cons_of_mem _ h)
      · rcases Table.mem_insert.mp h with rfl | ⟨h, -⟩
        · exact Or.inl (List.mem_cons_self ..)
        · exact Or.inr h
  exact (hfold ms .empty h).resolve_right List.not_mem_nil

theorem dailyWorld_ready {versioning : VersioningState} {ms : List Manifest} {now : Time}
    (hv : versioning = .off ∨ versioning = .enabled) (hfree : ∀ m ∈ ms, m.key.NulFree)
    (hshort : ∀ m ∈ ms, m.key.versionId.length < 5) (hnow : ∀ m ∈ ms, m.lastModified < now) :
    SweepReady sampleEnv now (dailyWorld versioning ms) where
  wellKeyed := dbOf_wellKeyed hfree
  versioning bucket cfg hcfg := by
    have hget : (dailyBucket versioning).get bucket = some cfg := hcfg
    rw [dailyBucket, Table.get_insert] at hget
    split at hget
    · cases hget
      exact hv
    · cases hget
  fresh n _ := by
    refine ⟨sampleEnv_sane.uuid_clear n, fun m hm he => ?_⟩
    have hlen := hshort m (mem_dbOf hm.row)
    rw [he, show (sampleEnv.uuid n).length = n + 5 from List.length_replicate ..] at hlen
    omega
  later m hm := hnow m (mem_dbOf hm.row)

theorem sweep_effect_one_object :
    ∃ report w', (sweepLifecycleAt (2 * nanosPerDay)).run sampleEnv (dailyWorld .enabled [bare ⟨[98], [107], [118]⟩ .committed []]) =
        (.ok report, w') ∧
      SweepEffect (2 * nanosPerDay) (dailyWorld .enabled [bare ⟨[98], [107], [118]⟩ .committed []]) w' report := by
  refine sweep_effect (dailyWorld_ready (Or.inr rfl) ?_ ?_ ?_) <;> intro m hm <;> rw [List.mem_singleton.mp hm]
  · exact ⟨by decide, by decide, by decide⟩
  · decide
  · decide

/-- Aborted uploads of as many keys. -/
def crowd (n : Nat) : List Manifest := (List.range n).map fun i => bare ⟨[98], List.replicate (i + 1) 107, [118]⟩ .aborted []

theorem crowd_key {n : Nat} {m : Manifest} (h : m ∈ crowd n) :
    ∃ i < n, m = bare ⟨[98], List.replicate (i + 1) 107, [118]⟩ .aborted [] := by
  obtain ⟨i, hi, rfl⟩ := List.mem_map.mp h
  exact ⟨i, List.mem_range.mp hi, rfl⟩

theorem crowd_nulFree (i : Nat) : (ManifestKey.mk [98] (List.replicate (i + 1) 107) [118]).NulFree := by
  refine ⟨(by decide : NulFree [98]), fun c hc => ?_, (by decide : NulFree [118])⟩
  rw [List.eq_of_mem_replicate hc]
  decide

theorem crowd_rows (n : Nat) : (dbOf (crowd n)).objects.rows.length = n := by
  have hlength : ∀ t : Objects, t.rows.length = t.sumBy fun _ => 1 := by
    intro t
    simp [Table.sumBy]
  rw [hlength]
  induction n with
  | zero => rfl
  | succ n ih =>
    have hcrowd : crowd (n + 1) = crowd n ++ [bare ⟨[98], List.replicate (n + 1) 107, [118]⟩ .aborted []] := by
      rw [crowd, List.range_succ, List.map_append]
      rfl
    -- the new key is longer than those before
    have hnone : (dbOf (crowd n)).objects.get (ManifestKey.mk [98] (List.replicate (n + 1) 107) [118]).encode = none := by
      refine Table.get_eq_none.mpr fun r hr he => ?_
      obtain ⟨i, hi, e⟩ := crowd_key (mem_dbOf hr)
      have hrow := (dbOf_wellKeyed (fun m hm => by obtain ⟨i, -, rfl⟩ := crowd_key hm; exact crowd_nulFree i) r hr).1
      rw [e] at hrow
      have hkey := ManifestKey.encode_injective (crowd_nulFree i) (crowd_nulFree n) (hrow.symm.trans he)
      have hlen := congrArg (fun k => k.key.length) hkey
      simp only [List.length_replicate] at hlen
      omega
    have hinsert := Table.sumBy_insert (fun _ => 1) (dbOf (crowd n)).objects
      (ManifestKey.mk [98] (List.replicate (n + 1) 107) [118]).encode (bare ⟨[98], List.replicate (n + 1) 107, [118]⟩ .aborted [])
    rw [hnone] at hinsert
    have hobjects : (dbOf (crowd (n + 1))).objects = (dbOf (crowd n)).objects.insert
        (ManifestKey.mk [98] (List.replicate (n + 1) 107) [118]).encode
        (bare ⟨[98], List.replicate (n + 1) 107, [118]⟩ .aborted []) := by
      rw [hcrowd, dbOf, List.foldl_append]
      rfl
    rw [hobjects]
    simp only [Option.map_none, Option.getD_none, Nat.add_zero] at hinsert
    rw [hinsert, ih]

theorem crowd_due (n : Nat) (now : Time) : ((dailyWorld .off (crowd n)).db.objects.rows.countP fun r =>
    abortDue (dailyWorld .off (crowd n)).db now r.2) = n := by
  have hall : ∀ r ∈ (dailyWorld .off (crowd n)).db.objects.rows, abortDue (dailyWorld .off (crowd n)).db now r.2 = true := by
    intro r hr
    obtain ⟨i, -, e⟩ := crowd_key (mem_dbOf hr)
    have hrules : bucketRules (dailyWorld .off (crowd n)).db [98] = [⟨none, .enabled, none, some 1, none, none⟩] := rfl
    have hb : r.2.key.bucket = [98] := by rw [e]; rfl
    have hs : r.2.state = .aborted := by rw [e]; rfl
    rw [abortDue, hs, hb, hrules]
    rfl
  rw [List.countP_eq_length.mpr hall]
  exact crowd_rows n

/-- 2^32 uploads are removed, and the report counts none. -/
theorem a_report_wraps :
    SweepReady sampleEnv 1 (dailyWorld .off (crowd (2 ^ 32))) ∧
      ∃ report w', (sweepLifecycleAt 1).run sampleEnv (dailyWorld .off (crowd (2 ^ 32))) = (.ok report, w') ∧
        ((dailyWorld .off (crowd (2 ^ 32))).db.objects.rows.countP fun r =>
          abortDue (dailyWorld .off (crowd (2 ^ 32))).db 1 r.2) = 2 ^ 32 ∧
        report.abortedMultipart = 0 := by
  have hready : SweepReady sampleEnv 1 (dailyWorld .off (crowd (2 ^ 32))) := by
    refine dailyWorld_ready (Or.inl rfl) ?_ ?_ ?_ <;> intro m hm <;> obtain ⟨i, -, rfl⟩ := crowd_key hm
    · exact crowd_nulFree i
    · exact (by decide : 1 < 5)
    · exact (by decide : (0 : Int) < 1)
  obtain ⟨w', hrun, hswept⟩ := sweepLifecycle_run hready
  refine ⟨hready, _, w', hrun, crowd_due _ 1, ?_⟩
  rw [(hswept.effect hready).abortedMultipart, crowd_due, Nat.mod_self]

end S3lite
