/-
  S3lite.Lifecycle.Rules — what the lifecycle rules ask for, row by row.

  The sweep looks for the first rule that acts on a manifest. What it finds depends on which
  enabled rules of the bucket match, and not on their order.
  - `sweepAction`: the action the sweep takes on a row, read off the store before it.
  - `sweepAction_abort`, `sweepAction_expire`, `sweepAction_noncurrent`: each is taken exactly
    on the rows that are due for it (`abortDue`, `expiryDue`, `noncurrentDue`).
-/
import S3lite.Listing.Latest
import S3lite.S3.Maintenance

namespace S3lite

/-! ## Rows -/

/-- The manifest is a row of the store. -/
def Stored (db : Db) (m : Manifest) : Prop := db.objects.get m.key.encode = some m

section
variable {db : Db} {m m' : Manifest}

theorem stored_iff (hdb : WellKeyed db) : Stored db m ↔ ∃ k, (k, m) ∈ db.objects.rows := by
  constructor
  · intro h
    exact ⟨_, Table.mem_rows.mpr h⟩
  · intro h
    obtain ⟨k, hk⟩ := h
    obtain rfl : k = m.key.encode := (hdb _ hk).1
    exact Table.mem_rows.mp hk

theorem Stored.row (h : Stored db m) : (m.key.encode, m) ∈ db.objects.rows := Table.mem_rows.mpr h

theorem Stored.nulFree (hdb : WellKeyed db) (h : Stored db m) : m.key.NulFree := (hdb _ h.row).2

theorem Stored.eq_of_key (h : Stored db m) (h' : Stored db m') (hkey : m'.key = m.key) : m' = m := by
  unfold Stored at h h'
  rw [hkey, h] at h'
  exact (Option.some.inj h').symm

theorem mem_listAll_iff (hdb : WellKeyed db) {bucket : Str} :
    m ∈ handleListAllManifestsInBucket db bucket ↔ Stored db m ∧ m.key.bucket = bucket := by
  constructor
  · intro h
    obtain ⟨hrow, hbucket⟩ := mem_listAll h
    exact ⟨(stored_iff hdb).mpr hrow, hbucket⟩
  · intro h
    obtain ⟨hm, rfl⟩ := h
    unfold handleListAllManifestsInBucket
    exact List.mem_filter.mpr ⟨List.mem_map_of_mem (mem_bucketRange hdb hm.row), decide_eq_true rfl⟩

end

/-! ## Rules -/

/-- The rules of the bucket that are enabled. -/
def activeRules (cfg : BucketConfig) : List LifecycleRule := cfg.lifecycleRules.filter fun r => r.status = .enabled

def bucketRules (db : Db) (bucket : Str) : List LifecycleRule := ((db.buckets.get bucket).map activeRules).getD []

/-- An enabled rule of the bucket with a matching prefix asks for it at the manifest's age. -/
def asked (db : Db) (now : Time) (m : Manifest) (days : LifecycleRule → Option Nat) : Bool :=
  (bucketRules db m.key.bucket).any fun r => r.matching m.key.key && (days r).any (agedDays now m.createdAt)

/-- The latest version of its key. -/
def isCurrent (db : Db) (m : Manifest) : Bool :=
  decide ((handleGetLatestVersion db m.key.bucket m.key.key).map (·.key) = some m.key)

def unlocked (now : Time) (m : Manifest) : Bool := !m.objectLock.any fun l => l.forbidsDelete now

/-- An upload to abort: aborted before, or open for too long. -/
def abortDue (db : Db) (now : Time) (m : Manifest) : Bool :=
  match m.state with
  | .aborted => !(bucketRules db m.key.bucket).isEmpty
  | .inProgress => asked db now m (·.abortIncompleteMultipartUpload)
  | .committed => false

/-- A version to remove that is not the latest. -/
def noncurrentDue (db : Db) (now : Time) (m : Manifest) : Bool :=
  decide (m.state = .committed) && !isCurrent db m && unlocked now m && asked db now m (·.noncurrentVersionExpiration)

/-- An object to expire. -/
def expiryDue (db : Db) (now : Time) (m : Manifest) : Bool :=
  isCurrent db m && decide (m.kind = .object) && unlocked now m && asked db now m (·.expiration)

def versioningOf (db : Db) (bucket : Str) : Option VersioningState := (db.buckets.get bucket).map (·.versioning)

/-- The row goes. -/
def removes (db : Db) (now : Time) (m : Manifest) : Bool :=
  abortDue db now m || noncurrentDue db now m || expiryDue db now m && decide (versioningOf db m.key.bucket = some .off)

/-- The row gets a delete marker over it. -/
def marks (db : Db) (now : Time) (m : Manifest) : Bool :=
  expiryDue db now m && decide (versioningOf db m.key.bucket = some .enabled)

theorem asked_rules {db : Db} {now : Time} {m : Manifest} {days : LifecycleRule → Option Nat} (h : asked db now m days = true) :
    bucketRules db m.key.bucket ≠ [] := by
  intro hnil
  rw [asked, hnil] at h
  cases h

/-! ## The sweep's choice -/

/-- What the sweep does with the row. -/
def sweepAction (db : Db) (now : Time) (m : Manifest) : LifecycleAction :=
  if bucketRules db m.key.bucket = [] then .keep
  else lifecycleAction m (isCurrent db m) (bucketRules db m.key.bucket) now

/-- A search that can find one thing only. -/
theorem findSome_const {α β : Type} (p : α → Bool) (b : β) (l : List α) :
    (l.findSome? fun a => if p a then some b else none) = if l.any p then some b else none := by
  induction l with
  | nil => rfl
  | cons a l ih =>
    rw [List.findSome?_cons, List.any_cons]
    cases p a with
    | true => rfl
    | false => exact ih

theorem any_matching {rules : List LifecycleRule} {key : Str} {p : LifecycleRule → Bool} :
    (rules.filter (·.matching key)).any p = rules.any fun r => r.matching key && p r := by
  rw [List.any_filter]

section
variable {db : Db} {now : Time} {m m' : Manifest}

/-- A committed version: kept by its lock, or decided by whether it is the latest. -/
theorem lifecycleAction_committed {current : Bool} {rules : List LifecycleRule} (hs : m.state = .committed) :
    lifecycleAction m current rules now =
      if unlocked now m = false then .keep
      else if current then
        if decide (m.kind = .object) && rules.any fun r => r.matching m.key.key && r.expiration.any (agedDays now m.createdAt) then
          .expireCurrent
        else .keep
      else if rules.any fun r => r.matching m.key.key && r.noncurrentVersionExpiration.any (agedDays now m.createdAt) then
        .expireNoncurrent
      else .keep := by
  unfold lifecycleAction unlocked
  simp only [hs, Bool.not_eq_false']
  split
  · rfl
  cases current with
  | true =>
    by_cases hk : m.kind = .object
    · simp only [hk, Bool.true_and, Bool.not_true, Bool.false_and, Bool.false_eq_true, if_false, if_true, beq_self_eq_true,
        decide_true, findSome_const, any_matching]
      split <;> rfl
    · have hb : (m.kind == ManifestKind.object) = false := beq_eq_false_iff_ne.mpr hk
      have hnone : ∀ l : List LifecycleRule, (l.findSome? fun _ => (none : Option LifecycleAction)) = none :=
        fun l => List.findSome?_eq_none_iff.mpr fun _ _ => rfl
      simp [hb, hk, hnone]
  | false =>
    simp only [Bool.false_and, Bool.not_false, Bool.true_and, Bool.false_eq_true, if_false, findSome_const, any_matching]
    split <;> rfl

theorem lifecycleAction_inProgress {current : Bool} {rules : List LifecycleRule} (hs : m.state = .inProgress) :
    lifecycleAction m current rules now =
      if rules.any fun r => r.matching m.key.key && r.abortIncompleteMultipartUpload.any (agedDays now m.createdAt) then
        .abortUpload
      else .keep := by
  unfold lifecycleAction
  simp only [hs, any_matching]

theorem lifecycleAction_aborted {current : Bool} {rules : List LifecycleRule} (hs : m.state = .aborted) :
    lifecycleAction m current rules now = .abortUpload := by
  unfold lifecycleAction
  simp only [hs]

theorem isCurrent_iff (hdb : WellKeyed db) (hm : Stored db m) :
    isCurrent db m = true ↔ handleGetLatestVersion db m.key.bucket m.key.key = some m := by
  unfold isCurrent
  rw [decide_eq_true_eq, Option.map_eq_some_iff]
  constructor
  · intro h
    obtain ⟨l, hl, hkey⟩ := h
    have hrow := (stored_iff hdb).mpr (mem_versionsOf.mp (get_latest_mem hdb hl)).1
    rw [hl, hm.eq_of_key hrow hkey]
  · intro h
    exact ⟨m, h, rfl⟩

/-- The latest versions of a key are one. -/
theorem current_unique (hdb : WellKeyed db) (hm : Stored db m) (hm' : Stored db m') (hc : isCurrent db m = true)
    (hc' : isCurrent db m' = true) (hbucket : m.key.bucket = m'.key.bucket) (hkey : m.key.key = m'.key.key) : m = m' := by
  have h := (isCurrent_iff hdb hm).mp hc
  rw [hbucket, hkey, (isCurrent_iff hdb hm').mp hc'] at h
  exact (Option.some.inj h).symm

/-- The latest version is committed. -/
theorem isCurrent_committed (hdb : WellKeyed db) (hm : Stored db m) (h : isCurrent db m = true) : m.state = .committed :=
  (mem_versionsOf.mp (get_latest_mem hdb ((isCurrent_iff hdb hm).mp h))).2.1

theorem sweepAction_eq (hdb : WellKeyed db) (hm : Stored db m) : sweepAction db now m =
    if abortDue db now m then .abortUpload
    else if expiryDue db now m then .expireCurrent
    else if noncurrentDue db now m then .expireNoncurrent
    else .keep := by
  unfold sweepAction abortDue expiryDue noncurrentDue
  by_cases hr : bucketRules db m.key.bucket = []
  · have hno : ∀ days, asked db now m days = false := fun days => by rw [asked, hr]; rfl
    cases m.state <;> simp [hr, hno]
  rw [if_neg hr]
  cases hs : m.state with
  | aborted =>
    have hne : (!(bucketRules db m.key.bucket).isEmpty) = true := by
      rw [Bool.not_eq_true', List.isEmpty_eq_false_iff]
      exact hr
    rw [lifecycleAction_aborted hs, if_pos hne]
  | inProgress =>
    have hc : isCurrent db m = false := by
      refine Bool.eq_false_iff.mpr fun hc => ?_
      rw [isCurrent_committed hdb hm hc] at hs
      cases hs
    rw [lifecycleAction_inProgress hs]
    simp [hc, asked]
  | committed =>
    rw [lifecycleAction_committed hs]
    unfold asked
    cases unlocked now m <;> cases isCurrent db m <;> simp

theorem abortDue_not_committed (h : abortDue db now m = true) : m.state ≠ .committed := by
  intro hs
  rw [abortDue, hs] at h
  cases h

theorem expiryDue_current (h : expiryDue db now m = true) : isCurrent db m = true := by
  simp only [expiryDue, Bool.and_eq_true] at h
  exact h.1.1.1

theorem noncurrentDue_committed (h : noncurrentDue db now m = true) : m.state = .committed ∧ isCurrent db m = false := by
  simp only [noncurrentDue, Bool.and_eq_true, decide_eq_true_eq, Bool.not_eq_true'] at h
  exact ⟨h.1.1.1, h.1.1.2⟩

theorem sweepAction_abort (hdb : WellKeyed db) (hm : Stored db m) : sweepAction db now m = .abortUpload ↔ abortDue db now m = true := by
  rw [sweepAction_eq hdb hm]
  cases abortDue db now m <;> cases expiryDue db now m <;> cases noncurrentDue db now m <;> simp

theorem sweepAction_expire (hdb : WellKeyed db) (hm : Stored db m) : sweepAction db now m = .expireCurrent ↔ expiryDue db now m = true := by
  rw [sweepAction_eq hdb hm]
  by_cases he : expiryDue db now m = true
  · have ha : abortDue db now m = false := by
      refine Bool.eq_false_iff.mpr fun ha => ?_
      exact abortDue_not_committed ha (isCurrent_committed hdb hm (expiryDue_current he))
    simp [ha, he]
  · rw [Bool.not_eq_true] at he
    cases abortDue db now m <;> cases noncurrentDue db now m <;> simp [he]

theorem sweepAction_noncurrent (hdb : WellKeyed db) (hm : Stored db m) :
    sweepAction db now m = .expireNoncurrent ↔ noncurrentDue db now m = true := by
  rw [sweepAction_eq hdb hm]
  by_cases hn : noncurrentDue db now m = true
  · obtain ⟨hs, hc⟩ := noncurrentDue_committed hn
    have ha : abortDue db now m = false := Bool.eq_false_iff.mpr fun ha => abortDue_not_committed ha hs
    have he : expiryDue db now m = false := by
      refine Bool.eq_false_iff.mpr fun he => ?_
      rw [expiryDue_current he] at hc
      cases hc
    simp [ha, he, hn]
  · rw [Bool.not_eq_true] at hn
    cases abortDue db now m <;> cases expiryDue db now m <;> simp [hn]

/-- Whether the row goes depends on the action, and on the versioning when it expires. -/
theorem removes_eq (hdb : WellKeyed db) (hm : Stored db m) : removes db now m = match sweepAction db now m with
    | .keep => false
    | .abortUpload => true
    | .expireNoncurrent => true
    | .expireCurrent => decide (versioningOf db m.key.bucket = some .off) := by
  have ha : sweepAction db now m = _ ↔ _ := sweepAction_abort hdb hm
  have he : sweepAction db now m = _ ↔ _ := sweepAction_expire hdb hm
  have hn : sweepAction db now m = _ ↔ _ := sweepAction_noncurrent hdb hm
  unfold removes
  cases hact : sweepAction db now m <;> rw [hact] at ha he hn <;> simp at ha he hn <;> simp [ha, he, hn]

theorem marks_eq (hdb : WellKeyed db) (hm : Stored db m) : marks db now m = match sweepAction db now m with
    | .expireCurrent => decide (versioningOf db m.key.bucket = some .enabled)
    | _ => false := by
  have he : sweepAction db now m = _ ↔ _ := sweepAction_expire hdb hm
  unfold marks
  cases hact : sweepAction db now m <;> rw [hact] at he <;> simp at he <;> simp [he]

theorem sweepAction_rules (h : sweepAction db now m ≠ .keep) : bucketRules db m.key.bucket ≠ [] := by
  intro hnil
  rw [sweepAction, if_pos hnil] at h
  exact h rfl

/-- What is removed or marked is acted on. -/
theorem removes_rules (hdb : WellKeyed db) (hm : Stored db m) (h : removes db now m = true) :
    bucketRules db m.key.bucket ≠ [] := by
  have hact : sweepAction db now m ≠ .keep := fun hkeep => by
    rw [removes_eq hdb hm, hkeep] at h
    cases h
  exact sweepAction_rules hact

theorem marks_rules (hdb : WellKeyed db) (hm : Stored db m) (h : marks db now m = true) : bucketRules db m.key.bucket ≠ [] := by
  have hact : sweepAction db now m ≠ .keep := fun hkeep => by
    rw [marks_eq hdb hm, hkeep] at h
    cases h
  exact sweepAction_rules hact

end

end S3lite
