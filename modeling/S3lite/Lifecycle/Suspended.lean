/-
  S3lite.Lifecycle.Suspended — what the lifecycle sweep leaves of one key, whatever the
  versioning of its bucket.

  In a bucket with suspended versioning the delete marker of an expired object goes into the
  row "null" (`hides`), over a version that may be there, and where the sweep may still
  come by.
  - `swept_unhidden`, `swept_hidden`: the rows of a key after the sweep.
  - `locked_kept_iff`: a locked version stays, unless a marker goes over it
    (`a_legal_hold_is_overwritten`).
  - `expired_gone_iff`: an expired object is gone, unless one comes back
    (`an_expired_object_comes_back`).
-/
import S3lite.Lifecycle.Sweep
import S3lite.Safety.Recovery

namespace S3lite

open Handler

/-! ## The rows of one key -/

/-- The sweep puts a delete marker for it. -/
def hides (db : Db) (now : Time) (m : Manifest) : Bool :=
  expiryDue db now m && !decide (versioningOf db m.key.bucket = some .off)

/-- The versions of a key in the order the sweep comes to them. -/
def keyGroup (db : Db) (bucket key : Str) : List Manifest :=
  sortVersions ((handleListAllManifestsInBucket db bucket).filter fun m => m.key.key = key)

/-- The sweep comes to `x` after `m`, a version of the same key. -/
def SweptAfter (db : Db) (m x : Manifest) : Prop :=
  ∃ pre post, keyGroup db m.key.bucket m.key.key = pre ++ m :: post ∧ x ∈ post

/-- No id to come is that of a version. -/
def FreshIds (env : Env) (w : World) : Prop :=
  ∀ n, w.uuids ≤ n → NulFree (env.uuid n) ∧ ∀ m, Stored w.db m → m.key.versionId ≠ env.uuid n

section
variable {env : Env} {db : Db} {now : Time} {s : Objects × Nat} {m : Manifest} {bucket key : Str}

theorem mem_keyGroup (hdb : WellKeyed db) :
    m ∈ keyGroup db bucket key ↔ Stored db m ∧ m.key.bucket = bucket ∧ m.key.key = key := by
  rw [keyGroup, sortVersions, (List.perm_insertionSort _ _).mem_iff, List.mem_filter, mem_listAll_iff hdb, decide_eq_true_eq,
    and_assoc]

theorem versioning_isSome (h : expiryDue db now m = true) : (versioningOf db m.key.bucket).isSome := by
  have hrules : bucketRules db m.key.bucket ≠ [] := asked_rules (Bool.and_eq_true_iff.mp h).2
  unfold bucketRules at hrules
  unfold versioningOf
  cases hcfg : db.buckets.get m.key.bucket with
  | some cfg => rfl
  | none =>
    rw [hcfg] at hrules
    exact absurd rfl hrules

/-- An action removes the row, or puts a marker, or does nothing. -/
theorem replayOne_eq (hdb : WellKeyed db) (hm : Stored db m) : replayOne env db now s m =
    if removes db now m then (s.1.erase m.key.encode, s.2)
    else if hides db now m then
      let t := markerFor env now (versioningOf db m.key.bucket) s.2 m
      (s.1.insert t.key.encode t, if versioningOf db m.key.bucket = some .enabled then s.2 + 1 else s.2)
    else s := by
  have hremoves : removes db now m = _ := removes_eq hdb hm
  have hexpire : sweepAction db now m = _ ↔ _ := sweepAction_expire hdb hm
  unfold hides replayOne
  cases hact : sweepAction db now m <;> rw [hact] at hremoves hexpire
  case keep =>
    have he : expiryDue db now m = false := by simpa using hexpire
    simp [hremoves, he]
  case abortUpload => simp [hremoves]
  case expireNoncurrent => simp [hremoves]
  case expireCurrent =>
    have he : expiryDue db now m = true := by simpa using hexpire
    obtain ⟨v, hv⟩ := Option.isSome_iff_exists.mp (versioning_isSome he)
    rw [hv] at hremoves ⊢
    cases v <;> simp [hremoves, he]

/-- Where no marker is put, the rows that are due go. -/
theorem replay_unhidden (env : Env) (hdb : WellKeyed db) {ms : List Manifest} (hms : ∀ x ∈ ms, Stored db x ∧ hides db now x = false)
    (s : Objects × Nat) (k : Bytes) : (replay env db now ms s).2 = s.2 ∧ (replay env db now ms s).1.get k =
      if ∃ x ∈ ms, x.key.encode = k ∧ removes db now x = true then none else s.1.get k := by
  induction ms generalizing s with
  | nil => exact ⟨rfl, by simp [replay]⟩
  | cons x ms ih =>
    obtain ⟨hx, hhide⟩ := hms x (List.mem_cons_self ..)
    have hone : replayOne env db now s x = _ := replayOne_eq hdb hx
    rw [hhide] at hone
    obtain ⟨hu, hget⟩ := ih (fun y hy => hms y (List.mem_cons_of_mem _ hy)) (replayOne env db now s x)
    rw [show replay env db now (x :: ms) s = replay env db now ms (replayOne env db now s x) from rfl]
    cases hr : removes db now x with
    | true =>
      rw [hr] at hone
      rw [hone] at hu hget
      refine ⟨by rw [hone]; exact hu, ?_⟩
      rw [hone, hget]
      by_cases hlater : ∃ y ∈ ms, y.key.encode = k ∧ removes db now y = true
      · rw [if_pos hlater, if_pos]
        obtain ⟨y, hy, h⟩ := hlater
        exact ⟨y, List.mem_cons_of_mem _ hy, h⟩
      · rw [if_neg hlater]
        show (s.1.erase x.key.encode).get k = _
        rw [Table.get_erase]
        by_cases hk : k = x.key.encode
        · rw [if_pos hk, if_pos ⟨x, List.mem_cons_self .., hk.symm, hr⟩]
        · rw [if_neg hk, if_neg]
          intro h
          obtain ⟨y, hy, hyk, hyr⟩ := h
          rcases List.mem_cons.mp hy with rfl | hy
          · exact hk hyk.symm
          · exact hlater ⟨y, hy, hyk, hyr⟩
    | false =>
      rw [hr] at hone
      have hone : replayOne env db now s x = s := hone
      rw [hone] at hu hget
      refine ⟨by rw [hone]; exact hu, ?_⟩
      rw [hone, hget]
      refine if_congr ⟨fun h => ?_, fun h => ?_⟩ rfl rfl
      · obtain ⟨y, hy, h⟩ := h
        exact ⟨y, List.mem_cons_of_mem _ hy, h⟩
      · obtain ⟨y, hy, hyk, hyr⟩ := h
        rcases List.mem_cons.mp hy with rfl | hy
        · rw [hr] at hyr
          cases hyr
        · exact ⟨y, hy, hyk, hyr⟩

/-- The sweep comes to the versions of a key one after the other. -/
theorem evaluated_split (hdb : WellKeyed db) (hm : Stored db m) (hrules : bucketRules db m.key.bucket ≠ []) :
    ∃ before after, evaluated db db.buckets.rows = before ++ (keyGroup db m.key.bucket m.key.key ++ after) ∧
      ∀ x ∈ before ++ after, Stored db x ∧ ¬ (x.key.bucket = m.key.bucket ∧ x.key.key = m.key.key) := by
  obtain ⟨cfg, hcfg, hne⟩ : ∃ cfg, db.buckets.get m.key.bucket = some cfg ∧ activeRules cfg ≠ [] := by
    unfold bucketRules at hrules
    cases hcfg : db.buckets.get m.key.bucket with
    | some cfg =>
      rw [hcfg] at hrules
      exact ⟨cfg, rfl, hrules⟩
    | none =>
      rw [hcfg] at hrules
      exact absurd rfl hrules
  obtain ⟨rows₁, rows₂, hrows⟩ := List.append_of_mem (Table.mem_rows.mpr hcfg)
  obtain ⟨ms, hms⟩ := Option.isSome_iff_exists.mp
    ((foldl_pushVersion_isSome (handleListAllManifestsInBucket db m.key.bucket) .empty m.key.key).mpr
      (Or.inr ⟨m, (mem_listAll_iff hdb).mpr ⟨hm, rfl⟩, rfl⟩))
  have hgroup : sortVersions ms = keyGroup db m.key.bucket m.key.key := by
    rw [keyGroup, show ms = _ from mem_pushVersion_rows (Table.mem_rows.mpr hms)]
  obtain ⟨groups₁, groups₂, hgroups⟩ := List.append_of_mem (Table.mem_rows.mpr hms)
  have heval : ∃ before after, evaluated db db.buckets.rows = before ++ (keyGroup db m.key.bucket m.key.key ++ after) := by
    refine ⟨evaluated db rows₁ ++ groups₁.flatMap (fun r => sortVersions r.2),
      groups₂.flatMap (fun r => sortVersions r.2) ++ evaluated db rows₂, ?_⟩
    rw [hrows, evaluated, List.flatMap_append, List.flatMap_cons, if_neg hne, evaluatedIn, hgroups, List.flatMap_append,
      List.flatMap_cons, hgroup]
    simp only [List.append_assoc]
    rfl
  obtain ⟨before, after, heval⟩ := heval
  refine ⟨before, after, heval, fun x hx => ?_⟩
  have hin : x ∈ evaluated db db.buckets.rows := by
    rw [heval]
    rcases List.mem_append.mp hx with hx | hx
    · exact List.mem_append_left _ hx
    · exact List.mem_append_right _ (List.mem_append_right _ hx)
  have hstored := ((mem_evaluated hdb).mp hin).1
  refine ⟨hstored, fun hk => ?_⟩
  -- what is of the key is in the group, and in the list once
  have hnodup := evaluated_nodup hdb
  rw [heval] at hnodup
  have hmem := (mem_keyGroup hdb).mpr ⟨hstored, hk⟩
  obtain ⟨-, hrest, hdisj⟩ := List.nodup_append.mp hnodup
  rcases List.mem_append.mp hx with hx | hx
  · exact hdisj x hx x (List.mem_append_left _ hmem) rfl
  · exact (List.nodup_append.mp hrest).2.2 x hmem x hx rfl

theorem hides_iff (h : hides db now m = true) : expiryDue db now m = true ∧ versioningOf db m.key.bucket ≠ some .off := by
  obtain ⟨he, hv⟩ := Bool.and_eq_true_iff.mp h
  exact ⟨he, by simpa using hv⟩

theorem hides_current (h : hides db now m = true) : isCurrent db m = true := expiryDue_current (hides_iff h).1

/-- What gets a marker stays. -/
theorem hides_removes (hdb : WellKeyed db) (hm : Stored db m) (h : hides db now m = true) : removes db now m = false := by
  obtain ⟨he, hv⟩ := hides_iff h
  rw [removes_eq hdb hm, (sweepAction_expire hdb hm).mpr he]
  exact decide_eq_false hv

/-- One version of a key gets a marker at most. -/
theorem not_hides (hdb : WellKeyed db) {c x : Manifest} (hc : Stored db c) (hh : hides db now c = true) (hx : Stored db x)
    (hbucket : x.key.bucket = c.key.bucket) (hkey : x.key.key = c.key.key) (hne : x ≠ c) : hides db now x = false := by
  refine Bool.eq_false_iff.mpr fun h => hne ?_
  exact current_unique hdb hx hc (hides_current h) (hides_current hh) hbucket hkey

theorem keyGroup_nodup (hdb : WellKeyed db) : (keyGroup db bucket key).Nodup := by
  refine (List.perm_insertionSort _ _).nodup_iff.mpr (List.Nodup.filter _ ?_)
  exact (listAll_sorted hdb bucket).imp fun h e => absurd (e ▸ h) (lt_irrefl _)

/-- Which of the group's rows go. -/
theorem removed_iff (hdb : WellKeyed db) {ms : List Manifest} (hms : ∀ x ∈ ms, Stored db x) {k : ManifestKey} (hk : k.NulFree) :
    (∃ y ∈ ms, y.key.encode = k.encode ∧ removes db now y = true) ↔ ∃ y ∈ ms, y.key = k ∧ removes db now y = true := by
  refine exists_congr fun y => and_congr_right fun hy => and_congr_left fun _ => ⟨fun h => ?_, fun h => by rw [h]⟩
  exact ManifestKey.encode_injective ((hms y hy).nulFree hdb) hk h

end

/-! ## After the sweep -/

section
variable {env : Env} {now : Time} {w w' : World} {bucket key : Str}

/-- What the sweep does to a key is what it does when it comes to its versions. -/
theorem swept_get (huuid : ∀ n, w.uuids ≤ n → NulFree (env.uuid n)) (hw : WellKeyed w.db)
    (h : Replayed env now w (evaluated w.db w.db.buckets.rows) w') {m : Manifest} (hm : Stored w.db m)
    (hrules : bucketRules w.db m.key.bucket ≠ []) :
    ∃ s : Objects × Nat, w.uuids ≤ s.2 ∧ ∀ k : ManifestKey, k.NulFree → k.bucket = m.key.bucket → k.key = m.key.key →
      s.1.get k.encode = w.db.objects.get k.encode ∧
      w'.db.objects.get k.encode = (replay env w.db now (keyGroup w.db m.key.bucket m.key.key) s).1.get k.encode := by
  obtain ⟨before, after, heval, hfar⟩ := evaluated_split hw hm hrules
  refine ⟨replay env w.db now before (w.db.objects, w.uuids), replay_uuids before (w.db.objects, w.uuids), fun k hk hb hkey => ⟨?_, ?_⟩⟩
  · refine replay_far huuid (fun x hx => (hfar x (List.mem_append_left _ hx)).1.nulFree hw) hk fun x hx he => ?_
    exact (hfar x (List.mem_append_left _ hx)).2 ⟨he.1.trans hb, he.2.trans hkey⟩
  · rw [h.objects, heval, replay_append, replay_append]
    refine replay_far (fun n hn => huuid n (((replay_uuids before (w.db.objects, w.uuids)).trans (replay_uuids _ _)).trans hn))
      (fun x hx => (hfar x (List.mem_append_right _ hx)).1.nulFree hw) hk fun x hx he => ?_
    exact (hfar x (List.mem_append_right _ hx)).2 ⟨he.1.trans hb, he.2.trans hkey⟩

/-- A key without a marker: the rows that are due go, and no row comes. -/
theorem swept_unhidden (huuid : ∀ n, w.uuids ≤ n → NulFree (env.uuid n)) (hw : WellKeyed w.db)
    (h : Replayed env now w (evaluated w.db w.db.buckets.rows) w')
    (hno : ∀ c, Stored w.db c → c.key.bucket = bucket → c.key.key = key → hides w.db now c = false) {x : Manifest}
    (hb : x.key.bucket = bucket) (hk : x.key.key = key) : Stored w'.db x ↔ Stored w.db x ∧ removes w.db now x = false := by
  subst hb hk
  have hw' := h.wellKeyed huuid hw
  by_cases hex : ∃ m, Stored w.db m ∧ m.key.bucket = x.key.bucket ∧ m.key.key = x.key.key ∧ bucketRules w.db m.key.bucket ≠ []
  · obtain ⟨m, hm, hbucket, hkey, hrules⟩ := hex
    obtain ⟨s, -, hs⟩ := swept_get huuid hw h hm hrules
    rw [hbucket, hkey] at hs
    have hgroup : ∀ y ∈ keyGroup w.db x.key.bucket x.key.key, Stored w.db y ∧ hides w.db now y = false := by
      intro y hy
      obtain ⟨hy, hyb, hyk⟩ := (mem_keyGroup hw).mp hy
      exact ⟨hy, hno y hy hyb hyk⟩
    have hget : ∀ hfree : x.key.NulFree, w'.db.objects.get x.key.encode =
        if ∃ y ∈ keyGroup w.db x.key.bucket x.key.key, y.key = x.key ∧ removes w.db now y = true then none
        else w.db.objects.get x.key.encode := by
      intro hfree
      obtain ⟨hsame, hget⟩ := hs x.key hfree rfl rfl
      rw [hget, (replay_unhidden env hw hgroup s _).2, hsame]
      exact if_congr (removed_iff hw (fun y hy => (hgroup y hy).1) hfree) rfl rfl
    constructor
    · intro hx
      have hget := hget (hx.nulFree hw')
      rw [show w'.db.objects.get x.key.encode = some x from hx] at hget
      split at hget
      · cases hget
      · rename_i hnone
        have hx : Stored w.db x := hget.symm
        exact ⟨hx, Bool.eq_false_iff.mpr fun hr => hnone ⟨x, (mem_keyGroup hw).mpr ⟨hx, rfl, rfl⟩, rfl, hr⟩⟩
    · intro hx
      obtain ⟨hx, hr⟩ := hx
      unfold Stored
      rw [hget (hx.nulFree hw), if_neg]
      · exact hx
      · intro hy
        obtain ⟨y, hy, hkey, hyr⟩ := hy
        rw [hx.eq_of_key (hgroup y hy).1 hkey, hr] at hyr
        cases hyr
  · -- the sweep does not come to the key
    have hfar : ∀ y ∈ evaluated w.db w.db.buckets.rows, ¬ (y.key.bucket = x.key.bucket ∧ y.key.key = x.key.key) := by
      intro y hy hkey
      obtain ⟨hy, hrules⟩ := (mem_evaluated hw).mp hy
      exact hex ⟨y, hy, hkey.1, hkey.2, hrules⟩
    have hget : x.key.NulFree → w'.db.objects.get x.key.encode = w.db.objects.get x.key.encode := by
      intro hfree
      rw [h.objects]
      exact replay_far huuid (fun y hy => (h.seen y hy).nulFree hw) hfree hfar
    constructor
    · intro hx
      have hx' : Stored w.db x := (hget (hx.nulFree hw')).symm.trans hx
      exact ⟨hx', Bool.eq_false_iff.mpr fun hr => hex ⟨x, hx', rfl, rfl, removes_rules hw hx' hr⟩⟩
    · intro hx
      exact (hget (hx.1.nulFree hw)).trans hx.1

/-- A key with a marker: the rows that are due go, and the marker comes into the row it is for,
    unless the sweep comes by that row afterwards to remove it. -/
theorem swept_hidden (huuid : ∀ n, w.uuids ≤ n → NulFree (env.uuid n)) (hw : WellKeyed w.db)
    (h : Replayed env now w (evaluated w.db w.db.buckets.rows) w') {c : Manifest} (hc : Stored w.db c)
    (hh : hides w.db now c = true) :
    ∃ n, w.uuids ≤ n ∧ ∀ t, t = markerFor env now (versioningOf w.db c.key.bucket) n c →
      (∀ x : Manifest, x.key.bucket = c.key.bucket → x.key.key = c.key.key → x.key ≠ t.key →
        (Stored w'.db x ↔ Stored w.db x ∧ removes w.db now x = false)) ∧
      ((∃ x, Stored w.db x ∧ x.key = t.key ∧ SweptAfter w.db c x ∧ removes w.db now x = true) →
        w'.db.objects.get t.key.encode = none) ∧
      (¬ (∃ x, Stored w.db x ∧ x.key = t.key ∧ SweptAfter w.db c x ∧ removes w.db now x = true) → Stored w'.db t) := by
  have hrules : bucketRules w.db c.key.bucket ≠ [] := asked_rules (Bool.and_eq_true_iff.mp (hides_iff hh).1).2
  have hw' := h.wellKeyed huuid hw
  obtain ⟨s, hs2, hs⟩ := swept_get huuid hw h hc hrules
  obtain ⟨pre, post, hgroup⟩ := List.append_of_mem ((mem_keyGroup hw).mpr ⟨hc, rfl, rfl⟩)
  have hnodup : (keyGroup w.db c.key.bucket c.key.key).Nodup := keyGroup_nodup hw
  rw [hgroup] at hnodup
  obtain ⟨-, hpost, hdisj⟩ := List.nodup_append.mp hnodup
  have hcpre : c ∉ pre := fun hin => hdisj c hin c (List.mem_cons_self ..) rfl
  have hcpost : c ∉ post := (List.nodup_cons.mp hpost).1
  have hmem : ∀ x, x ∈ pre ∨ x ∈ post → Stored w.db x ∧ hides w.db now x = false := by
    intro x hx
    have hin : x ∈ keyGroup w.db c.key.bucket c.key.key := by
      rw [hgroup]
      rcases hx with hx | hx
      · exact List.mem_append_left _ hx
      · exact List.mem_append_right _ (List.mem_cons_of_mem _ hx)
    obtain ⟨hst, hb, hk⟩ := (mem_keyGroup hw).mp hin
    refine ⟨hst, not_hides hw hc hh hst hb hk fun e => ?_⟩
    subst e
    rcases hx with hx | hx
    · exact hcpre hx
    · exact hcpost hx
  have hafter : ∀ x, SweptAfter w.db c x ↔ x ∈ post := by
    intro x
    constructor
    · intro hx
      obtain ⟨pre', post', hgroup', hin⟩ := hx
      have hnodup' : (keyGroup w.db c.key.bucket c.key.key).Nodup := keyGroup_nodup hw
      rw [hgroup'] at hnodup'
      obtain ⟨-, hpost', hdisj'⟩ := List.nodup_append.mp hnodup'
      obtain ⟨-, -, hsame⟩ := (List.append_cons_inj_of_notMem (fun hin => hdisj' c hin c (List.mem_cons_self ..) rfl)
        (List.nodup_cons.mp hpost').1).mp (hgroup'.symm.trans hgroup)
      rw [← hsame]
      exact hin
    · intro hx
      exact ⟨pre, post, hgroup, hx⟩
  -- the counter when the sweep comes to the current version
  let s₁ := replay env w.db now pre s
  refine ⟨s₁.2, hs2.trans (replay_uuids _ _), fun t ht => ?_⟩
  have htfree : t.key.NulFree := by
    rw [ht]
    exact markerFor_nulFree (huuid _ (hs2.trans (replay_uuids _ _))) (hc.nulFree hw)
  have htbucket : t.key.bucket = c.key.bucket := by rw [ht]; rfl
  have htkey : t.key.key = c.key.key := by rw [ht]; rfl
  have hone : (replayOne env w.db now s₁ c).1 = s₁.1.insert t.key.encode t := by
    rw [replayOne_eq hw hc, hides_removes hw hc hh, hh, ht]
    rfl
  have hget : ∀ k : ManifestKey, k.NulFree → k.bucket = c.key.bucket → k.key = c.key.key → w'.db.objects.get k.encode =
      if ∃ y ∈ post, y.key = k ∧ removes w.db now y = true then none
      else if k = t.key then some t
      else if ∃ y ∈ pre, y.key = k ∧ removes w.db now y = true then none
      else w.db.objects.get k.encode := by
    intro k hk hb hkey
    obtain ⟨hsame, hk'⟩ := hs k hk hb hkey
    have hpre := (replay_unhidden env hw (fun x hx => hmem x (Or.inl hx)) s k.encode).2
    have hpost := (replay_unhidden env hw (fun x hx => hmem x (Or.inr hx)) (replayOne env w.db now s₁ c) k.encode).2
    rw [hk', hgroup, replay_append]
    show (replay env w.db now post (replayOne env w.db now s₁ c)).1.get k.encode = _
    rw [hpost, hone, Table.get_insert, hpre, hsame]
    refine if_congr (removed_iff hw (fun y hy => (hmem y (Or.inr hy)).1) hk) rfl ?_
    by_cases hkt : k = t.key
    · rw [if_pos (congrArg ManifestKey.encode hkt), if_pos hkt]
    · rw [if_neg fun he => hkt (ManifestKey.encode_injective hk htfree he), if_neg hkt]
      exact if_congr (removed_iff hw (fun y hy => (hmem y (Or.inl hy)).1) hk) rfl rfl
  -- the rows that are due, apart from the current version's
  have hdue : ∀ {ms : List Manifest} {k : ManifestKey}, (∀ y ∈ ms, y ∈ pre ∨ y ∈ post) →
      (∃ y ∈ ms, y.key = k ∧ removes w.db now y = true) → ∃ y, Stored w.db y ∧ y.key = k ∧ removes w.db now y = true := by
    intro ms k hms hy
    obtain ⟨y, hy, hyk, hyr⟩ := hy
    exact ⟨y, (hmem y (hms y hy)).1, hyk, hyr⟩
  refine ⟨fun x hb hkey hne => ?_, fun hx => ?_, fun hx => ?_⟩
  · constructor
    · intro hx
      have hx' := hget x.key (hx.nulFree hw') hb hkey
      rw [show w'.db.objects.get x.key.encode = some x from hx, if_neg hne] at hx'
      split at hx'
      · cases hx'
      rename_i hnpost
      split at hx'
      · cases hx'
      rename_i hnpre
      have hx : Stored w.db x := hx'.symm
      refine ⟨hx, Bool.eq_false_iff.mpr fun hr => ?_⟩
      have hin := (mem_keyGroup hw).mpr ⟨hx, hb, hkey⟩
      rw [hgroup] at hin
      rcases List.mem_append.mp hin with hin | hin
      · exact hnpre ⟨x, hin, rfl, hr⟩
      · rcases List.mem_cons.mp hin with rfl | hin
        · rw [hides_removes hw hc hh] at hr
          cases hr
        · exact hnpost ⟨x, hin, rfl, hr⟩
    · intro hx
      obtain ⟨hx, hr⟩ := hx
      have hnone : ¬ ∃ y, Stored w.db y ∧ y.key = x.key ∧ removes w.db now y = true := by
        intro hy
        obtain ⟨y, hy, hyk, hyr⟩ := hy
        rw [hx.eq_of_key hy hyk, hr] at hyr
        cases hyr
      unfold Stored
      rw [hget x.key (hx.nulFree hw) hb hkey, if_neg fun hy => hnone (hdue (fun _ => Or.inr) hy), if_neg hne,
        if_neg fun hy => hnone (hdue (fun _ => Or.inl) hy)]
      exact hx
  · obtain ⟨x, -, hxk, hafter', hr⟩ := hx
    rw [hget t.key htfree htbucket htkey, if_pos ⟨x, (hafter x).mp hafter', hxk, hr⟩]
  · unfold Stored
    rw [hget t.key htfree htbucket htkey, if_neg, if_pos rfl]
    intro hy
    obtain ⟨y, hy, hyk, hyr⟩ := hy
    exact hx ⟨y, (hmem y (Or.inr hy)).1, hyk, (hafter y).mpr hy, hyr⟩

end

/-! ## Locked versions -/

/-- The delete marker of another version goes into its row. -/
def MarkedOver (db : Db) (now : Time) (m : Manifest) : Prop :=
  ∃ c, Stored db c ∧ expiryDue db now c = true ∧ c.key.bucket = m.key.bucket ∧ c.key.key = m.key.key ∧
    versioningOf db m.key.bucket = some .suspended ∧ m.key.versionId = nullVersionId

section
variable {env : Env} {now : Time} {w w' : World} {m c : Manifest}

/-- A lock keeps a committed version from every rule. -/
theorem locked_removes {db : Db} (hlock : unlocked now m = false) : removes db now m = abortDue db now m := by
  rw [removes, noncurrentDue, expiryDue, hlock]
  simp

theorem MarkedOver.hides (hh : MarkedOver w.db now m) : ∃ c, Stored w.db c ∧ c.key.bucket = m.key.bucket ∧
    c.key.key = m.key.key ∧ hides w.db now c = true := by
  obtain ⟨c, hc, he, hb, hk, hv, -⟩ := hh
  refine ⟨c, hc, hb, hk, Bool.and_eq_true_iff.mpr ⟨he, ?_⟩⟩
  rw [hb, hv]
  rfl

theorem locked_kept (hw : WellKeyed w.db) (hfresh : FreshIds env w)
    (h : Replayed env now w (evaluated w.db w.db.buckets.rows) w') (hm : Stored w.db m) (hlock : unlocked now m = false) :
    Stored w'.db m ↔ abortDue w.db now m = false ∧ ¬ MarkedOver w.db now m := by
  have huuid := fun n hn => (hfresh n hn).1
  rw [← locked_removes hlock]
  by_cases hex : ∃ c, Stored w.db c ∧ c.key.bucket = m.key.bucket ∧ c.key.key = m.key.key ∧ hides w.db now c = true
  · obtain ⟨c, hc, hb, hk, hh⟩ := hex
    obtain ⟨n, hn, hswept⟩ := swept_hidden huuid hw h hc hh
    obtain ⟨hother, hgone, hput⟩ := hswept _ rfl
    by_cases hkey : m.key = (markerFor env now (versioningOf w.db c.key.bucket) n c).key
    · -- the marker's row
      have hversion : m.key.versionId = if versioningOf w.db c.key.bucket = some .enabled then env.uuid n else nullVersionId := by
        rw [hkey]
        rfl
      split at hversion
      · exact absurd hversion ((hfresh n hn).2 m hm)
      rename_i hne
      have hsuspended : versioningOf w.db m.key.bucket = some .suspended := by
        rw [← hb]
        obtain ⟨v, hv⟩ := Option.isSome_iff_exists.mp (versioning_isSome (hides_iff hh).1)
        have hoff := (hides_iff hh).2
        rw [hv] at hne hoff ⊢
        cases v with
        | off => exact absurd rfl hoff
        | enabled => exact absurd rfl hne
        | suspended => rfl
      constructor
      · intro hm'
        exfalso
        by_cases hlater : ∃ x, Stored w.db x ∧ x.key = (markerFor env now (versioningOf w.db c.key.bucket) n c).key ∧
            SweptAfter w.db c x ∧ removes w.db now x = true
        · have hnone := hgone hlater
          rw [← hkey, show w'.db.objects.get m.key.encode = some m from hm'] at hnone
          cases hnone
        · rw [(hput hlater).eq_of_key hm' hkey] at hlock
          cases hlock
      · intro hm'
        exact absurd ⟨c, hc, (hides_iff hh).1, hb, hk, hsuspended, hversion⟩ hm'.2
    · rw [hother m hb.symm hk.symm hkey]
      constructor
      · intro hm'
        refine ⟨hm'.2, fun hover => hkey ?_⟩
        obtain ⟨c', hc', he', hb', hk', hv', hnull⟩ := hover
        rw [markerFor, hb, hv', hk]
        exact (ManifestKey.mk.injEq ..).mpr ⟨rfl, rfl, hnull⟩
      · intro hm'
        exact ⟨hm, hm'.1⟩
  · have hno : ∀ c, Stored w.db c → c.key.bucket = m.key.bucket → c.key.key = m.key.key → hides w.db now c = false :=
      fun c hc hb hk => Bool.eq_false_iff.mpr fun hh => hex ⟨c, hc, hb, hk, hh⟩
    rw [swept_unhidden huuid hw h hno rfl rfl]
    constructor
    · intro hm'
      exact ⟨hm'.2, fun hover => hex hover.hides⟩
    · intro hm'
      exact ⟨hm, hm'.1⟩

/-- A locked version stays as it is, exactly if no delete marker of another version of the key
    goes into its row. (A locked upload stays unless it is aborted.) -/
theorem locked_kept_iff (hw : WellKeyed w.db) (hfresh : FreshIds env w) :
    ∃ report w', (sweepLifecycleAt now).run env w = (.ok report, w') ∧ ∀ m, Stored w.db m → unlocked now m = false →
      (Stored w'.db m ↔ abortDue w.db now m = false ∧ ¬ MarkedOver w.db now m) := by
  obtain ⟨w', hrun, hreplayed⟩ := sweepLifecycle_replay now (fun n hn => (hfresh n hn).1) hw
  exact ⟨_, w', hrun, fun m hm hlock => locked_kept hw hfresh hreplayed hm hlock⟩

end

/-- An object under an id of its own. -/
def dueObject : Manifest := { bare ⟨[98], [107], [118]⟩ .committed [] with lastModified := 1 }

/-- It is over an older one, in a bucket with suspended versioning whose objects and older
    versions expire after a day. -/
def overOlder (older : Manifest) : World :=
  ⟨{ dbOf [older, dueObject] with
      buckets := .insert .empty [98] ⟨0, .suspended, [], [], none, [⟨none, .enabled, none, some 1, some 1, none⟩]⟩ }, .empty, 0, 0⟩

/-- An object of the same key without an id of its own. -/
def nullVersion (lock : Option ObjectLock) : Manifest := { bare ⟨[98], [107], nullVersionId⟩ .committed [] with objectLock := lock }

theorem overOlder_wellKeyed (lock : Option ObjectLock) : WellKeyed (overOlder (nullVersion lock)).db := by
  refine dbOf_wellKeyed fun m hm => ?_
  rcases List.mem_cons.mp hm with rfl | hm
  · exact ⟨(by decide : NulFree [98]), (by decide : NulFree [107]), null_clear⟩
  · rw [List.mem_singleton.mp hm]
    exact ⟨(by decide : NulFree [98]), (by decide : NulFree [107]), (by decide : NulFree [118])⟩

theorem overOlder_stored (lock : Option ObjectLock) :
    Stored (overOlder (nullVersion lock)).db (nullVersion lock) ∧ Stored (overOlder (nullVersion lock)).db dueObject := by
  have hne : (nullVersion lock).key.encode ≠ dueObject.key.encode := (by decide :
    (ManifestKey.mk [98] [107] nullVersionId).encode ≠ (ManifestKey.mk [98] [107] [118]).encode)
  have hrows : (overOlder (nullVersion lock)).db.objects =
    (Table.empty.insert (nullVersion lock).key.encode (nullVersion lock)).insert dueObject.key.encode dueObject := rfl
  unfold Stored
  rw [hrows]
  exact ⟨(Table.get_insert_ne _ _ hne).trans (Table.get_insert_self ..), Table.get_insert_self ..⟩

theorem overOlder_fresh (lock : Option ObjectLock) : FreshIds sampleEnv (overOlder (nullVersion lock)) := by
  refine fun n _ => ⟨sampleEnv_sane.uuid_clear n, fun m hm he => ?_⟩
  have hshort : m.key.versionId.length < 5 := by
    have hin : m ∈ [nullVersion lock, dueObject] := mem_dbOf hm.row
    rcases List.mem_cons.mp hin with rfl | hin
    · exact (by decide : nullVersionId.length < 5)
    · rw [List.mem_singleton.mp hin]
      exact (by decide : 1 < 5)
  rw [he, show (sampleEnv.uuid n).length = n + 5 from List.length_replicate ..] at hshort
  omega

theorem locked_kept_iff_legal_hold : ∃ report w', (sweepLifecycleAt (2 * nanosPerDay)).run sampleEnv
    (overOlder (nullVersion (some ⟨none, true⟩))) = (.ok report, w') ∧
      ∀ m, Stored (overOlder (nullVersion (some ⟨none, true⟩))).db m → unlocked (2 * nanosPerDay) m = false →
        (Stored w'.db m ↔ abortDue (overOlder (nullVersion (some ⟨none, true⟩))).db (2 * nanosPerDay) m = false ∧
          ¬ MarkedOver (overOlder (nullVersion (some ⟨none, true⟩))).db (2 * nanosPerDay) m) :=
  locked_kept_iff (overOlder_wellKeyed _) (overOlder_fresh _)

/-- A legal hold on the older version; the newer one expires, and its delete marker takes the
    older one's row. -/
theorem a_legal_hold_is_overwritten :
    ¬ ∀ (env : Env) (now : Time) (w w' : World) (report : SweepReport), WellKeyed w.db → FreshIds env w →
      (sweepLifecycleAt now).run env w = (.ok report, w') →
      ∀ m, Stored w.db m → m.state = .committed → unlocked now m = false → Stored w'.db m := by
  intro h
  have hw := overOlder_wellKeyed (some ⟨none, true⟩)
  have hfresh := overOlder_fresh (some ⟨none, true⟩)
  obtain ⟨w', hrun, hreplayed⟩ := sweepLifecycle_replay (2 * nanosPerDay) (fun n hn => (hfresh n hn).1) hw
  obtain ⟨hm, hc⟩ := overOlder_stored (some ⟨none, true⟩)
  have hkept := h _ _ _ _ _ hw hfresh hrun _ hm rfl rfl
  have hover : MarkedOver (overOlder (nullVersion (some ⟨none, true⟩))).db (2 * nanosPerDay) (nullVersion (some ⟨none, true⟩)) := by
    refine ⟨dueObject, hc, ?_, rfl, rfl, ?_, rfl⟩
    · rfl
    · rfl
  exact ((locked_kept hw hfresh hreplayed hm rfl).mp hkept).2 hover

/-! ## Expired objects -/

/-- The committed versions of a key that the sweep leaves. -/
def leftOf (db : Db) (now : Time) (bucket key : Str) : List Manifest :=
  (versionsOf db bucket key).filter fun m => !removes db now m

/-- An object of the key is current after the sweep. Without versioning, the versions left
    have an object first. With suspended versioning, the row "null" is due as well, and the
    sweep comes to it after it has put the marker there. -/
def ComesBack (db : Db) (now : Time) (c : Manifest) : Prop :=
  match versioningOf db c.key.bucket with
  | some .off => ∃ l, (leftOf db now c.key.bucket c.key.key).foldl takeLatest none = some l ∧ l.kind = .object
  | some .suspended => ∃ x, Stored db x ∧ x.key = ⟨c.key.bucket, c.key.key, nullVersionId⟩ ∧ SweptAfter db c x ∧
      removes db now x = true
  | _ => False

/-- The latest version among some is the latest of all, if it is one of them. -/
theorem foldl_takeLatest_filter {p : Manifest → Bool} {ms : List Manifest} {m : Manifest}
    (h : ms.foldl takeLatest none = some m) (hp : p m = true) : (ms.filter p).foldl takeLatest none = some m := by
  rw [← head_sortVersions] at h
  rw [← find_sortVersions]
  cases hsorted : sortVersions ms with
  | nil =>
    rw [hsorted] at h
    cases h
  | cons x xs =>
    rw [hsorted] at h
    obtain rfl : x = m := Option.some.inj h
    rw [List.find?_cons, hp]

theorem versionsOf_sorted {db : Db} (hdb : WellKeyed db) (bucket key : Str) :
    (versionsOf db bucket key).Pairwise fun a b => a.key.encode < b.key.encode := by
  refine List.Pairwise.filter _ (List.pairwise_map.mpr (db.objects.sorted.imp_of_mem fun ha hb hab => ?_))
  rw [← (hdb _ ha).1, ← (hdb _ hb).1]
  exact hab

section
variable {env : Env} {now : Time} {w w' : World} {m c : Manifest}

/-- Where rows only went, the versions are those left. -/
theorem versionsOf_left {db db' : Db} (hdb : WellKeyed db) (hdb' : WellKeyed db') {p : Manifest → Bool} {bucket key : Str}
    (h : ∀ m, m.key.bucket = bucket → m.key.key = key → (Stored db' m ↔ Stored db m ∧ p m = true)) :
    versionsOf db' bucket key = (versionsOf db bucket key).filter p := by
  have hirrefl : Std.Irrefl fun a b : Manifest => a.key.encode < b.key.encode := ⟨fun _ => lt_irrefl _⟩
  have hasymm : Std.Antisymm fun a b : Manifest => a.key.encode < b.key.encode := ⟨fun _ _ h h' => absurd h' (lt_asymm h)⟩
  refine (versionsOf_sorted hdb' bucket key).eq_of_mem_iff ((versionsOf_sorted hdb bucket key).filter _) fun m => ?_
  rw [List.mem_filter, mem_versionsOf, mem_versionsOf, ← stored_iff hdb, ← stored_iff hdb']
  constructor
  · intro hm
    obtain ⟨hm, hs, hb, hk⟩ := hm
    obtain ⟨hm, hp⟩ := (h m hb hk).mp hm
    exact ⟨⟨hm, hs, hb, hk⟩, hp⟩
  · intro hm
    obtain ⟨⟨hm, hs, hb, hk⟩, hp⟩ := hm
    exact ⟨(h m hb hk).mpr ⟨hm, hp⟩, hs, hb, hk⟩

/-- The latest version of the key of an expired object: the marker, or what comes back. -/
theorem expired_latest (hw : WellKeyed w.db) (hfresh : FreshIds env w) (hlater : ∀ m, Stored w.db m → m.lastModified < now)
    (h : Replayed env now w (evaluated w.db w.db.buckets.rows) w') (hc : Stored w.db c) (he : expiryDue w.db now c = true) :
    (∀ l, handleGetLatestVersion w'.db c.key.bucket c.key.key = some l → l.kind = .tombstone) ↔ ¬ ComesBack w.db now c := by
  have huuid := fun n hn => (hfresh n hn).1
  have hw' := h.wellKeyed huuid hw
  obtain ⟨versioning, hv⟩ := Option.isSome_iff_exists.mp (versioning_isSome he)
  by_cases hoff : versioning = .off
  · -- the versions left
    subst hoff
    have hno : ∀ x, Stored w.db x → x.key.bucket = c.key.bucket → x.key.key = c.key.key → hides w.db now x = false := by
      intro x _ hb _
      unfold hides
      rw [hb, hv]
      simp
    have hleft : versionsOf w'.db c.key.bucket c.key.key = leftOf w.db now c.key.bucket c.key.key := by
      refine versionsOf_left hw hw' fun m hb hk => ?_
      rw [swept_unhidden huuid hw h hno hb hk, Bool.not_eq_true']
    rw [get_latest_eq hw', hleft, ComesBack, hv]
    constructor
    · intro hl hback
      obtain ⟨l, hget, hobject⟩ := hback
      rw [hl l hget] at hobject
      cases hobject
    · intro hback l hget
      cases hkind : l.kind with
      | tombstone => rfl
      | object => exact absurd ⟨l, hget, hkind⟩ hback
  have hh : hides w.db now c = true := by
    refine Bool.and_eq_true_iff.mpr ⟨he, ?_⟩
    rw [hv]
    simpa using hoff
  obtain ⟨n, hn, hswept⟩ := swept_hidden huuid hw h hc hh
  obtain ⟨hother, hgone, hput⟩ := hswept _ rfl
  -- a marker that stays is the latest version
  have hmarked : Stored w'.db (markerFor env now (versioningOf w.db c.key.bucket) n c) →
      ∀ l, handleGetLatestVersion w'.db c.key.bucket c.key.key = some l → l.kind = .tombstone := by
    intro ht l hl
    have hlatest : (versionsOf w'.db c.key.bucket c.key.key).foldl takeLatest none =
        some (markerFor env now (versioningOf w.db c.key.bucket) n c) := by
      refine foldl_takeLatest_newest (mem_versionsOf.mpr ⟨(stored_iff hw').mp ht, rfl, rfl, rfl⟩) fun x hx hne => ?_
      obtain ⟨hrow, -, hb, hk⟩ := mem_versionsOf.mp hx
      have hx := (stored_iff hw').mpr hrow
      have hkey : x.key ≠ (markerFor env now (versioningOf w.db c.key.bucket) n c).key := fun hkey =>
        hne (ht.eq_of_key hx hkey)
      exact hlater x ((hother x hb hk hkey).mp hx).1
    rw [get_latest_eq hw', hlatest] at hl
    rw [← Option.some.inj hl]
    rfl
  cases versioning with
  | off => exact absurd rfl hoff
  | enabled =>
    have ht := hput fun hlater => by
      obtain ⟨x, hx, hkey, -⟩ := hlater
      rw [hv] at hkey
      exact (hfresh n hn).2 x hx (congrArg ManifestKey.versionId hkey)
    rw [ComesBack, hv]
    exact iff_of_true (hmarked ht) not_false
  | suspended =>
    have hback : ComesBack w.db now c ↔ ∃ x, Stored w.db x ∧ x.key = (markerFor env now (versioningOf w.db c.key.bucket) n c).key ∧
        SweptAfter w.db c x ∧ removes w.db now x = true := by
      rw [ComesBack, hv]
      rfl
    rw [hback]
    constructor
    · intro hl hlater
      -- without the marker, the object is the latest version still
      have hnone := hgone hlater
      obtain ⟨x, hx, hkey, -, hr⟩ := hlater
      have hcr := hides_removes hw hc hh
      have hne : c.key ≠ (markerFor env now (versioningOf w.db c.key.bucket) n c).key := by
        intro hckey
        rw [hx.eq_of_key hc (hckey.trans hkey.symm), hr] at hcr
        cases hcr
      have hleft : versionsOf w'.db c.key.bucket c.key.key = (versionsOf w.db c.key.bucket c.key.key).filter fun m =>
          !removes w.db now m && decide (m.key ≠ (markerFor env now (versioningOf w.db c.key.bucket) n c).key) := by
        refine versionsOf_left hw hw' fun m hb hk => ?_
        by_cases hmkey : m.key = (markerFor env now (versioningOf w.db c.key.bucket) n c).key
        · have hm : ¬ Stored w'.db m := by
            unfold Stored
            rw [hmkey, hnone]
            exact fun h => by cases h
          simp [hm, hmkey]
        · rw [hother m hb hk hmkey]
          simp [hmkey]
      have hlatest : handleGetLatestVersion w'.db c.key.bucket c.key.key = some c := by
        rw [get_latest_eq hw', hleft]
        refine foldl_takeLatest_filter ?_ (by simp [hcr, hne])
        rw [← get_latest_eq hw]
        exact (isCurrent_iff hw hc).mp (expiryDue_current he)
      have hkind := hl c hlatest
      simp only [expiryDue, Bool.and_eq_true, decide_eq_true_eq] at he
      rw [he.1.1.2] at hkind
      cases hkind
    · intro hlater
      exact hmarked (hput hlater)

/-- The sweep runs to its end, and the collection after it leaves the rows. -/
theorem sweepAt_replay (now : Time) (hw : WellKeyed w.db) (hfresh : FreshIds env w) :
    ∃ report w₁ w', (sweepAt now).run env w = (.ok report, w') ∧
      Replayed env now w (evaluated w.db w.db.buckets.rows) w₁ ∧ w'.db.objects = w₁.db.objects ∧
      report.expiredCurrent = (w.db.objects.rows.countP fun r => expiryDue w.db now r.2) % 2 ^ 32 := by
  obtain ⟨w₁, hrun, hreplayed⟩ := sweepLifecycle_replay now (fun n hn => (hfresh n hn).1) hw
  obtain ⟨gc, w', hgc, hobjects⟩ : ∃ gc w', sweepGc.run env w₁ = (.ok gc, w') ∧ w'.db.objects = w₁.db.objects := by
    have h : Ensures env sweepGc w₁ (fun _ w' => Collected (handleListOrphanParts w₁.db) w₁ w') fun _ _ => False := ensures_sweepGc
    unfold Ensures at h
    rcases hr : sweepGc.run env w₁ with ⟨_ | gc, w'⟩ <;> rw [hr] at h
    · exact h.elim
    · exact ⟨gc, w', rfl, h.objects⟩
  let report := (evaluated w.db w.db.buckets.rows).foldl (note w.db now) ⟨0, 0, 0, 0⟩
  refine ⟨{ report with gcPartsRemoved := gc }, w₁, w', ?_, hreplayed, hobjects, counted_expired hw⟩
  rw [sweepAt, Handler.run_bind, hrun]
  simp only [Handler.run_bind, hgc]
  rfl

theorem get_latest_objects {db db' : Db} (h : db'.objects = db.objects) (bucket key : Str) :
    handleGetLatestVersion db' bucket key = handleGetLatestVersion db bucket key := by
  rw [handleGetLatestVersion, handleGetLatestVersion, h]

/-- After a sweep at a time past every change, an expired object's key has no current object,
    exactly if none comes back. -/
theorem expired_gone_iff (hw : WellKeyed w.db) (hfresh : FreshIds env w) (hlater : ∀ m, Stored w.db m → m.lastModified < now) :
    ∃ report w', (sweepAt now).run env w = (.ok report, w') ∧
      report.expiredCurrent = (w.db.objects.rows.countP fun r => expiryDue w.db now r.2) % 2 ^ 32 ∧
      ∀ c, Stored w.db c → expiryDue w.db now c = true →
        ((∀ l, handleGetLatestVersion w'.db c.key.bucket c.key.key = some l → l.kind = .tombstone) ↔ ¬ ComesBack w.db now c) := by
  obtain ⟨report, w₁, w', hrun, hreplayed, hobjects, hcount⟩ := sweepAt_replay now hw hfresh
  refine ⟨report, w', hrun, hcount, fun c hc he => ?_⟩
  rw [get_latest_objects hobjects]
  exact expired_latest hw hfresh hlater hreplayed hc he

end

theorem overOlder_later (lock : Option ObjectLock) (m : Manifest) (hm : Stored (overOlder (nullVersion lock)).db m) :
    m.lastModified < 2 * nanosPerDay := by
  have hin : m ∈ [nullVersion lock, dueObject] := mem_dbOf hm.row
  rcases List.mem_cons.mp hin with rfl | hin
  · exact (by decide : (0 : Int) < 2 * nanosPerDay)
  · rw [List.mem_singleton.mp hin]
    exact (by decide : (1 : Int) < 2 * nanosPerDay)

theorem expired_gone_iff_two_versions : ∃ report w', (sweepAt (2 * nanosPerDay)).run sampleEnv (overOlder (nullVersion none)) =
      (.ok report, w') ∧
    report.expiredCurrent = ((overOlder (nullVersion none)).db.objects.rows.countP fun r =>
      expiryDue (overOlder (nullVersion none)).db (2 * nanosPerDay) r.2) % 2 ^ 32 ∧
    ∀ c, Stored (overOlder (nullVersion none)).db c → expiryDue (overOlder (nullVersion none)).db (2 * nanosPerDay) c = true →
      ((∀ l, handleGetLatestVersion w'.db c.key.bucket c.key.key = some l → l.kind = .tombstone) ↔
        ¬ ComesBack (overOlder (nullVersion none)).db (2 * nanosPerDay) c) :=
  expired_gone_iff (overOlder_wellKeyed _) (overOlder_fresh _) (overOlder_later _)

/-- Both versions are due. The marker of the newer one takes the older one's row, is taken for
    the older one and removed, and the newer one is current again. -/
theorem an_expired_object_comes_back :
    ¬ ∀ (env : Env) (now : Time) (w w' : World) (report : SweepReport), WellKeyed w.db → FreshIds env w →
      (∀ m, Stored w.db m → m.lastModified < now) → (sweepAt now).run env w = (.ok report, w') →
      ∀ c, Stored w.db c → expiryDue w.db now c = true →
        ∀ l, handleGetLatestVersion w'.db c.key.bucket c.key.key = some l → l.kind = .tombstone := by
  intro h
  have hw := overOlder_wellKeyed none
  have hfresh := overOlder_fresh none
  have hlater := overOlder_later none
  obtain ⟨report, w₁, w', hrun, hreplayed, hobjects, -⟩ := sweepAt_replay (2 * nanosPerDay) hw hfresh
  obtain ⟨hx, hc⟩ := overOlder_stored none
  have he : expiryDue (overOlder (nullVersion none)).db (2 * nanosPerDay) dueObject = true := by rfl
  have hgone := h _ _ _ _ _ hw hfresh hlater hrun _ hc he
  rw [get_latest_objects hobjects] at hgone
  refine (expired_latest hw hfresh hlater hreplayed hc he).mp hgone ?_
  have hgroup : keyGroup (overOlder (nullVersion none)).db [98] [107] = [] ++ dueObject :: [nullVersion none] := rfl
  have hr : removes (overOlder (nullVersion none)).db (2 * nanosPerDay) (nullVersion none) = true := by rfl
  exact ⟨nullVersion none, hx, rfl, ⟨[], [nullVersion none], hgroup, List.mem_singleton_self _⟩, hr⟩

end S3lite
