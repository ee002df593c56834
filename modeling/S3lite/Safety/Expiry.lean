/-
  S3lite.Safety.Expiry — the lifecycle sweep beside the requests.

  The sweep decides on a listing of a bucket and acts row by row later (`Snapshot`). The
  operations are labelled with who performs them (`Party`), and a run logs the listings and
  the rows that are stored (`Swept`).
  - `lifecycleAction_due`: what the rules act on is of age for one of them.
  - `sweepOnce_decides`: so the sweep overwrites a row only for a listed manifest of age.
  - `Overwriting`: a sweep that is still to overwrite a row, on the listing it has.
  - `sweep_removes_due`: where the row it finds is no newer than that manifest, the row is
    of age itself; and where no row is stored that a sweep is still to overwrite, it was not
    stored after the listing. A row stored in between is not of age (`a_new_object_expires`).
-/
import S3lite.Safety.Pool
import S3lite.Listing.Versions

namespace S3lite

open Handler

/-! ## Age -/

/-- The manifest is of age for an action that the rule has for its state. -/
def LifecycleRule.due (rule : LifecycleRule) (now : Time) (m : Manifest) : Bool :=
  match m.state with
  | .inProgress => rule.abortIncompleteMultipartUpload.any (agedDays now m.createdAt)
  | .committed => rule.expiration.any (agedDays now m.createdAt) || rule.noncurrentVersionExpiration.any (agedDays now m.createdAt)
  | .aborted => false

theorem agedDays_mono {now t t' : Time} {days : Nat} (h : agedDays now t days = true) (ht : t' ≤ t) : agedDays now t' days = true := by
  unfold agedDays at h ⊢
  rw [decide_eq_true_eq] at h ⊢
  exact h.trans (Int.sub_le_sub_left ht now)

-- a day is over at its last nanosecond's end
example : agedDays nanosPerDay 0 1 = true ∧ agedDays (nanosPerDay - 1) 0 1 = false := by decide

theorem LifecycleRule.due_mono {rule : LifecycleRule} {now : Time} {m m' : Manifest} (h : rule.due now m = true)
    (hstate : m'.state = m.state) (hcreated : m'.createdAt ≤ m.createdAt) : rule.due now m' = true := by
  have hany : ∀ {o : Option Nat}, o.any (agedDays now m.createdAt) = true → o.any (agedDays now m'.createdAt) = true := by
    intro o ho
    obtain ⟨days, hdays, hage⟩ := (Option.any_eq_true _ _).mp ho
    exact (Option.any_eq_true _ _).mpr ⟨days, hdays, agedDays_mono hage hcreated⟩
  unfold LifecycleRule.due at h ⊢
  rw [hstate]
  cases hs : m.state with
  | inProgress =>
    rw [hs] at h
    exact hany h
  | committed =>
    rw [hs] at h
    rcases Bool.or_eq_true_iff.mp h with h | h
    · exact Bool.or_eq_true_iff.mpr (Or.inl (hany h))
    · exact Bool.or_eq_true_iff.mpr (Or.inr (hany h))
  | aborted =>
    rw [hs] at h
    cases h

/-- What the rules act on is of age for one of them, and expires only as the current version. -/
theorem lifecycleAction_due {m : Manifest} {isCurrent : Bool} {rules : List LifecycleRule} {now : Time}
    (hstate : m.state ≠ .aborted) (h : lifecycleAction m isCurrent rules now ≠ .keep) :
    (∃ rule ∈ rules, rule.matching m.key.key = true ∧ rule.due now m = true) ∧
      (lifecycleAction m isCurrent rules now = .expireCurrent → isCurrent = true ∧ m.state = .committed) := by
  unfold lifecycleAction at h ⊢
  simp only at h ⊢
  cases hs : m.state with
  | aborted => exact absurd hs hstate
  | inProgress =>
    rw [hs] at h
    simp only at h ⊢
    split at h
    · rename_i hany
      obtain ⟨rule, hrule, hdue⟩ := List.any_eq_true.mp hany
      obtain ⟨hmem, hmatch⟩ := List.mem_filter.mp hrule
      rw [if_pos hany]
      refine ⟨⟨rule, hmem, hmatch, ?_⟩, fun e => by cases e⟩
      unfold LifecycleRule.due
      rw [hs]
      exact hdue
    · exact absurd rfl h
  | committed =>
    rw [hs] at h
    simp only at h ⊢
    split at h
    · exact absurd rfl h
    · rename_i hlock
      rw [if_neg hlock]
      cases hfound : (rules.filter (·.matching m.key.key)).findSome? fun r =>
          if isCurrent && m.kind == .object && r.expiration.any (agedDays now m.createdAt) then some LifecycleAction.expireCurrent
          else if !isCurrent && r.noncurrentVersionExpiration.any (agedDays now m.createdAt) then some .expireNoncurrent
          else none with
      | none =>
        rw [hfound] at h
        exact absurd rfl h
      | some action =>
        obtain ⟨rule, hrule, haction⟩ := List.exists_of_findSome?_eq_some hfound
        obtain ⟨hmem, hmatch⟩ := List.mem_filter.mp hrule
        have hdue : ∀ b, (rule.expiration.any (agedDays now m.createdAt) || rule.noncurrentVersionExpiration.any (agedDays now m.createdAt)) = b →
            rule.due now m = b := by
          intro b hb
          unfold LifecycleRule.due
          rw [hs]
          exact hb
        rw [Option.getD_some]
        split at haction
        · rename_i hexpires
          simp only [Bool.and_eq_true] at hexpires
          refine ⟨⟨rule, hmem, hmatch, hdue _ ?_⟩, fun _ => ⟨hexpires.1.1, trivial⟩⟩
          rw [hexpires.2, Bool.true_or]
        · split at haction
          · rename_i hnoncurrent
            simp only [Bool.and_eq_true] at hnoncurrent
            refine ⟨⟨rule, hmem, hmatch, hdue _ ?_⟩, fun e => ?_⟩
            · rw [hnoncurrent.2, Bool.or_true]
            · cases haction
              cases e
          · cases haction

/-! ## What the sweep decides -/

/-- What the sweep decides on: the time it read, the buckets and the rows it listed. -/
structure Snapshot where
  now : Option Time
  buckets : List (Str × BucketConfig)
  listed : List Manifest

def Snapshot.start : Snapshot := ⟨none, [], []⟩

def Snapshot.next (s : Snapshot) : (op : Op) → op.Res → Snapshot
  | .nowUtc, t => { s with now := some t }
  | .metaOp .listBuckets, r => { s with buckets := r }
  | .metaOp (.listAllManifestsInBucket _), r => { s with listed := r }
  | _, _ => s

/-- The current version of a key. -/
def Snapshot.current (s : Snapshot) (key : Str) : Option Manifest :=
  (sortVersions (s.listed.filter fun m => m.key.key = key)).find? fun m => m.state = .committed

/-- The row an operation removes, or may replace. -/
def Op.overwrites : Op → Option ManifestKey
  | .metaOp (.deleteManifest key) => some key
  | .metaOp (.putManifest m) => some m.key
  | _ => none

/-- The listed manifest an operation of the sweep is about: a row is removed for its own, a
    delete marker stored for the current version. -/
def Snapshot.decided (s : Snapshot) : Op → Option Manifest
  | .metaOp (.deleteManifest key) => s.listed.find? fun m => m.key = key
  | .metaOp (.putManifest m) => s.current m.key.key
  | _ => none

/-- A matching rule of the bucket is enabled, for which the manifest is of age. -/
def Snapshot.Due (s : Snapshot) (key : ManifestKey) (m : Manifest) : Prop :=
  ∃ now cfg rule, s.now = some now ∧ (key.bucket, cfg) ∈ s.buckets ∧ rule ∈ cfg.lifecycleRules ∧ rule.status = .enabled ∧
    rule.matching key.key = true ∧ rule.due now m = true

theorem Snapshot.Due.mono {s : Snapshot} {key : ManifestKey} {m m' : Manifest} (h : s.Due key m) (hstate : m'.state = m.state)
    (hcreated : m'.createdAt ≤ m.createdAt) : s.Due key m' := by
  obtain ⟨now, cfg, rule, hnow, hcfg, hrule, henabled, hmatch, hdue⟩ := h
  exact ⟨now, cfg, rule, hnow, hcfg, hrule, henabled, hmatch, LifecycleRule.due_mono hdue hstate hcreated⟩

/-- `Due`, computed. -/
def Snapshot.dueCheck (s : Snapshot) (key : ManifestKey) (m : Manifest) : Bool :=
  s.now.any fun now => s.buckets.any fun b => decide (b.1 = key.bucket) && b.2.lifecycleRules.any fun rule =>
    decide (rule.status = .enabled) && (rule.matching key.key && rule.due now m)

theorem Snapshot.dueCheck_iff {s : Snapshot} {key : ManifestKey} {m : Manifest} : s.dueCheck key m = true ↔ s.Due key m := by
  unfold Snapshot.dueCheck
  simp only [Option.any_eq_true, List.any_eq_true, Bool.and_eq_true, decide_eq_true_eq]
  constructor
  · rintro ⟨now, hnow, ⟨name, cfg⟩, hb, rfl, rule, hrule, henabled, hmatch, hdue⟩
    exact ⟨now, cfg, rule, hnow, hb, hrule, henabled, hmatch, hdue⟩
  · rintro ⟨now, cfg, rule, hnow, hb, hrule, henabled, hmatch, hdue⟩
    exact ⟨now, hnow, _, hb, rfl, rule, hrule, henabled, hmatch, hdue⟩

/-- Who performs an operation: a client, or a sweep. -/
inductive Party where
  | client
  | sweeper (n : Nat)
  deriving DecidableEq

/-- A listing has one row for each key, and no aborted upload. -/
def Op.Lists : (op : Op) → op.Res → Prop
  | .metaOp (.listAllManifestsInBucket bucket), r =>
    ∀ m ∈ (r : List Manifest), m.key.bucket = bucket ∧ m.state ≠ .aborted ∧ ∀ m' ∈ (r : List Manifest), m'.key = m.key → m' = m
  | _, _ => True

/-- The sweep overwrites a row only for a listed manifest of age. -/
def sweeping (party : Party) : Prog.Protocol Op Op.Res Snapshot where
  ok := fun s op => party ≠ .client → ∀ key, op.overwrites = some key → ∃ m, s.decided op = some m ∧ s.Due key m
  res := fun _ op r => op.Lists r
  next := fun s op r => s.next op r

section
variable {bucket : Str} {cfg : BucketConfig} {versioning : VersioningState} {rules : List LifecycleRule} {now : Time} {s : Snapshot}
variable {n : Nat}

/-- The sweep is at work on a listed bucket, by its enabled rules. -/
structure Snapshot.Sweeps (s : Snapshot) (bucket : Str) (cfg : BucketConfig) (rules : List LifecycleRule) (now : Time) : Prop where
  now : s.now = some now
  bucket : (bucket, cfg) ∈ s.buckets
  rules : rules = cfg.lifecycleRules.filter fun r => r.status = .enabled

theorem Snapshot.Sweeps.due (h : s.Sweeps bucket cfg rules now) {key : ManifestKey} {m : Manifest} (hb : key.bucket = bucket)
    (hdue : ∃ rule ∈ rules, rule.matching key.key = true ∧ rule.due now m = true) : s.Due key m := by
  obtain ⟨rule, hrule, hmatch, hage⟩ := hdue
  rw [h.rules] at hrule
  obtain ⟨hmem, henabled⟩ := List.mem_filter.mp hrule
  exact ⟨now, cfg, rule, h.now, hb ▸ h.bucket, hmem, of_decide_eq_true henabled, hmatch, hage⟩

/-- The listing the sweep works from. -/
structure Snapshot.Listed (s : Snapshot) (bucket : Str) : Prop where
  own : ∀ m ∈ s.listed, m.key.bucket = bucket ∧ m.state ≠ .aborted ∧ ∀ m' ∈ s.listed, m'.key = m.key → m' = m

theorem Snapshot.Listed.decided_delete (h : s.Listed bucket) {m : Manifest} (hm : m ∈ s.listed) :
    s.decided (.metaOp (.deleteManifest m.key)) = some m := by
  show (s.listed.find? fun x => x.key = m.key) = some m
  cases hfound : s.listed.find? fun x => x.key = m.key with
  | none => exact absurd (decide_eq_true rfl) (List.find?_eq_none.mp hfound m hm)
  | some x =>
    have hkey := List.find?_some hfound
    rw [decide_eq_true_eq] at hkey
    rw [(h.own m hm).2.2 x (List.mem_of_find?_eq_some hfound) hkey]

theorem sweeping_delete (h : s.Listed bucket) (hs : s.Sweeps bucket cfg rules now) {m : Manifest} (hm : m ∈ s.listed)
    (hdue : ∃ rule ∈ rules, rule.matching m.key.key = true ∧ rule.due now m = true) :
    (sweeping (.sweeper n)).ok s (.metaOp (.deleteManifest m.key)) := by
  intro _ key hkey
  cases hkey
  exact ⟨m, h.decided_delete hm, hs.due (h.own m hm).1 hdue⟩

/-- The current version of a key is the only row of its version id. -/
theorem Snapshot.Listed.current (h : s.Listed bucket) {m : Manifest} (hm : m ∈ s.listed)
    (hcur : (s.current m.key.key).map (·.key.versionId) = some m.key.versionId) : s.current m.key.key = some m := by
  obtain ⟨cur, hfound, hv⟩ := Option.map_eq_some_iff.mp hcur
  have hmem := (List.perm_insertionSort _ _).mem_iff.mp (List.mem_of_find?_eq_some hfound)
  obtain ⟨hlisted, hkey⟩ := List.mem_filter.mp hmem
  have hsame : cur.key = m.key := by
    have hb := (h.own cur hlisted).1.trans (h.own m hm).1.symm
    have hk := of_decide_eq_true hkey
    cases hc : cur.key
    cases hmk : m.key
    simp_all
  rw [hfound, (h.own m hm).2.2 cur hlisted hsame]

theorem sweeping_nextVersionId {party : Party} {Q : Str → Snapshot → Prop} (hq : ∀ vid, Q vid s) :
    Keeps (sweeping party) (nextVersionId versioning) s Q := by
  cases versioning with
  | enabled => exact ⟨(fun _ _ h => by cases h), fun vid _ _ e => by cases e; exact hq vid⟩
  | off => exact keeps_ok.mpr (hq _)
  | suspended => exact keeps_ok.mpr (hq _)

theorem sweeping_expireCurrent (h : s.Listed bucket) (hs : s.Sweeps bucket cfg rules now) {m : Manifest} (hm : m ∈ s.listed)
    (hcur : s.current m.key.key = some m) (hdue : ∃ rule ∈ rules, rule.matching m.key.key = true ∧ rule.due now m = true)
    {Q : Unit → Snapshot → Prop} (hq : Q () s) : Keeps (sweeping (.sweeper n)) (expireCurrent bucket versioning m now) s Q := by
  have hmark : Keeps (sweeping (.sweeper n)) (do
      let newVersion ← nextVersionId versioning
      let r ← op (.metaOp (.putManifest (tombstone ⟨bucket, m.key.key, newVersion⟩ now)))
      let _ ← mapErr mapMetaErr r
      ok ()) s Q := by
    simp only [keeps_bind, keeps_op, keeps_mapErr, keeps_ok]
    refine sweeping_nextVersionId fun vid => ⟨fun _ key hkey => ?_, fun _ _ _ _ => hq⟩
    cases hkey
    exact ⟨m, hcur, hs.due rfl hdue⟩
  cases versioning with
  | off =>
    simp only [expireCurrent, keeps_bind, keeps_op, keeps_mapErr, keeps_ok]
    exact ⟨sweeping_delete h hs hm hdue, fun _ _ _ _ => hq⟩
  | enabled => exact hmark
  | suspended => exact hmark

theorem sweeping_evaluateManifest (h : s.Listed bucket) (hs : s.Sweeps bucket cfg rules now) {m : Manifest} (hm : m ∈ s.listed)
    {report : SweepReport} {Q : SweepReport → Snapshot → Prop} (hq : ∀ r, Q r s) :
    Keeps (sweeping (.sweeper n))
      (evaluateManifest bucket versioning m ((s.current m.key.key).map (·.key.versionId)) rules now report) s Q := by
  unfold evaluateManifest
  cases haction : lifecycleAction m (decide ((s.current m.key.key).map (·.key.versionId) = some m.key.versionId)) rules now with
  | keep => exact keeps_ok.mpr (hq _)
  | abortUpload =>
    obtain ⟨hdue, -⟩ := lifecycleAction_due (h.own m hm).2.1 (by rw [haction]; exact LifecycleAction.noConfusion)
    simp only [keeps_bind, keeps_op, keeps_mapErr, keeps_ok]
    exact ⟨sweeping_delete h hs hm hdue, fun _ _ _ _ => hq _⟩
  | expireCurrent =>
    obtain ⟨hdue, hcurrent⟩ := lifecycleAction_due (h.own m hm).2.1 (by rw [haction]; exact LifecycleAction.noConfusion)
    have hcur := h.current hm (of_decide_eq_true (hcurrent haction).1)
    simp only [keeps_bind, keeps_ok]
    exact sweeping_expireCurrent h hs hm hcur hdue (hq _)
  | expireNoncurrent =>
    obtain ⟨hdue, -⟩ := lifecycleAction_due (h.own m hm).2.1 (by rw [haction]; exact LifecycleAction.noConfusion)
    simp only [keeps_bind, keeps_op, keeps_mapErr, keeps_ok]
    exact ⟨sweeping_delete h hs hm hdue, fun _ _ _ _ => hq _⟩

theorem sweeping_evaluateAll (h : s.Listed bucket) (hs : s.Sweeps bucket cfg rules now) {key : Str} {ms : List Manifest}
    (hms : ∀ m ∈ ms, m ∈ s.listed ∧ m.key.key = key) {report : SweepReport} {Q : SweepReport → Snapshot → Prop}
    (hq : ∀ r, Q r s) : Keeps (sweeping (.sweeper n))
      (evaluateAll bucket versioning ((s.current key).map (·.key.versionId)) rules now report ms) s Q := by
  induction ms generalizing report with
  | nil => exact keeps_ok.mpr (hq _)
  | cons m ms ih =>
    obtain ⟨hm, hkey⟩ := hms m (List.mem_cons_self ..)
    unfold evaluateAll
    rw [keeps_bind]
    rw [← hkey]
    refine sweeping_evaluateManifest h hs hm fun r => ?_
    rw [hkey]
    exact ih fun x hx => hms x (List.mem_cons_of_mem _ hx)

theorem sweeping_sweepKeys (h : s.Listed bucket) (hs : s.Sweeps bucket cfg rules now) {byKey : List (Str × List Manifest)}
    (hgroups : ∀ r ∈ byKey, r.2 = s.listed.filter fun m => m.key.key = r.1) {report : SweepReport}
    {Q : SweepReport → Snapshot → Prop} (hq : ∀ r, Q r s) :
    Keeps (sweeping (.sweeper n)) (sweepKeys bucket versioning rules now report byKey) s Q := by
  induction byKey generalizing report with
  | nil => exact keeps_ok.mpr (hq _)
  | cons r byKey ih =>
    obtain ⟨key, versions⟩ := r
    have hversions : versions = s.listed.filter fun m => m.key.key = key := hgroups _ (List.mem_cons_self ..)
    subst hversions
    unfold sweepKeys
    simp only [keeps_bind]
    refine sweeping_evaluateAll h hs (fun m hm => ?_) fun r => ih fun x hx => hgroups x (List.mem_cons_of_mem _ hx)
    obtain ⟨hlisted, hkey⟩ := List.mem_filter.mp ((List.perm_insertionSort _ _).mem_iff.mp hm)
    exact ⟨hlisted, of_decide_eq_true hkey⟩

theorem sweeping_sweepBuckets (hnow : s.now = some now) {buckets : List (Str × BucketConfig)}
    (hbuckets : ∀ b ∈ buckets, b ∈ s.buckets) {report : SweepReport} {Q : SweepReport → Snapshot → Prop} (hq : ∀ r s, Q r s) :
    Keeps (sweeping (.sweeper n)) (sweepBuckets now report buckets) s Q := by
  induction buckets generalizing s report with
  | nil => exact keeps_ok.mpr (hq _ _)
  | cons b buckets ih =>
    obtain ⟨name, cfg⟩ := b
    have hrest := fun x hx => hbuckets x (List.mem_cons_of_mem _ hx)
    unfold sweepBuckets
    simp only
    split
    · exact ih hnow hrest
    · simp only [keeps_bind, keeps_op]
      refine ⟨(fun _ _ hkey => by cases hkey), fun listed hlisted => ?_⟩
      have hown : Snapshot.Listed { s with listed := listed } name := ⟨hlisted⟩
      have hsweeps : Snapshot.Sweeps { s with listed := listed } name cfg _ now := ⟨hnow, hbuckets _ (List.mem_cons_self ..), rfl⟩
      exact sweeping_sweepKeys hown hsweeps (fun r hr => mem_pushVersion_rows hr) fun r =>
        ih (s := { s with listed := listed }) hnow hrest

theorem sweeping_allowsGc {party : Party} : AllowsGc (sweeping party) :=
  ⟨fun _ _ _ _ h => (by cases h), fun _ _ _ _ h => (by cases h), fun _ _ _ _ h => (by cases h)⟩

theorem sweeping_sweepParts {party : Party} {orphans : List Hash} {Q : Nat → Snapshot → Prop} (hq : ∀ n s, Q n s) :
    Keeps (sweeping party) (sweepParts orphans) s Q := by
  induction orphans generalizing s Q with
  | nil => exact keeps_ok.mpr (hq _ _)
  | cons hash orphans ih =>
    unfold sweepParts
    simp only [keeps_bind]
    exact sweeping_allowsGc.collectPart fun _ _ => ih fun _ _ => keeps_ok.mpr (hq _ _)

theorem sweepOnce_decides : Keeps (sweeping (.sweeper n)) sweepOnce s fun _ _ => True := by
  unfold sweepOnce sweepAt sweepLifecycleAt sweepGc
  simp only [keeps_bind, keeps_op, keeps_ok]
  refine ⟨(fun _ _ h => by cases h), fun now _ => ⟨(fun _ _ h => by cases h), fun buckets _ => ?_⟩⟩
  refine sweeping_sweepBuckets (s := ⟨some now, buckets, s.listed⟩) rfl (fun _ hb => hb) fun report s => ⟨(fun _ _ h => by cases h), fun orphans _ => ?_⟩
  exact sweeping_sweepParts fun _ _ => trivial

end

/-! ## What is still to come -/

/-- Listing a bucket. -/
def Op.lists : Op → Bool
  | .metaOp (.listAllManifestsInBucket _) => true
  | _ => false

/-- The row an operation stores with its content. -/
def Op.stores : Op → Option ManifestKey
  | .metaOp (.putManifest m) => some m.key
  | .metaOp (.completeMultipartUpload _ m) => some m.key
  | _ => none

/-- The row an operation of the sweep does away with. A delete marker under an id of its own
    does away with none. -/
def Op.displaces : Op → Option ManifestKey
  | .metaOp (.deleteManifest key) => some key
  | .metaOp (.putManifest m) => if m.key.versionId = nullVersionId then some m.key else none
  | _ => none

abbrev SweptProg := Prog (Party × Op) (fun l => l.2.Res) Unit

/-- A sweep that, on the listing it has, is still to do away with the row. -/
inductive Overwriting (env : Env) : SweptProg → ManifestKey → Prop
  | now {n : Nat} {op : Op} {k : op.Res → SweptProg} {key : ManifestKey} : op.displaces = some key →
      Overwriting env (.call (.sweeper n, op) k) key
  | later {n : Nat} {op : Op} {k : op.Res → SweptProg} {key : ManifestKey} (r : op.Res) : op.lists = false → op.Sound env r →
      Overwriting env (k r) key → Overwriting env (.call (.sweeper n, op) k) key

theorem Op.overwrites_of_displaces {op : Op} {key : ManifestKey} (h : op.displaces = some key) : op.overwrites = some key := by
  cases op with
  | metaOp op =>
    cases op with
    | deleteManifest key' => exact h
    | putManifest m =>
      simp only [Op.displaces] at h
      split at h
      · exact h
      · cases h
    | _ => cases h
  | _ => cases h

theorem Snapshot.decided_nil {s : Snapshot} (h : s.listed = []) (op : Op) : s.decided op = none := by
  cases op with
  | metaOp op =>
    cases op <;> first
      | rfl
      | simp only [Snapshot.decided, Snapshot.current, h, List.filter_nil, List.find?_nil, sortVersions, List.insertionSort_nil]
  | _ => rfl

theorem Overwriting.sweeper {env : Env} {p : SweptProg} {key : ManifestKey} (h : Overwriting env p key) {party : Party}
    (hof : p.OfLabel party) : ∃ n, party = .sweeper n := by
  cases h with
  | now _ => exact ⟨_, hof.1.symm⟩
  | later _ _ _ _ => exact ⟨_, hof.1.symm⟩

/-- A sweep is still to overwrite a row only once it has listed some. -/
theorem Overwriting.listed {env : Env} {p : SweptProg} {key : ManifestKey} (h : Overwriting env p key) {Q : Unit → Ghost × Snapshot → Prop}
    {g : Ghost × Snapshot} (hf : p.Follows (.tagged fun party => (discipline env).prod (sweeping party)) Q g) : g.2.listed ≠ [] := by
  induction h generalizing g with
  | now hkey =>
    intro hnone
    obtain ⟨m, hm, -⟩ := hf.1.2 (by intro e; cases e) _ (Op.overwrites_of_displaces hkey)
    rw [Snapshot.decided_nil hnone] at hm
    cases hm
  | @later n op k key r hlists hsound _ ih =>
    have hlisted : op.Lists r := by
      cases op with
      | metaOp op => cases op <;> trivial
      | _ => trivial
    have hnext := ih (hf.2 r ⟨hsound, hlisted⟩)
    intro hnone
    apply hnext
    show (g.2.next op r).listed = []
    rw [← hnone]
    cases op with
    | metaOp op => cases op <;> first | rfl | cases hlists
    | _ => rfl

/-! ## Runs -/

/-- The server with a log of the listings and of the rows stored, the newest first. -/
abbrev SweptConfig := Config (Party × Op) (fun l => l.2.Res) (World × List (Party × Op)) (Ghost × Snapshot)

/-- A listing, or a row stored with its content. -/
def counts (l : Party × Op) (r : l.2.Res) : Bool := l.2.lists || (l.2.stores.isSome && l.2.storesRow r)

/-- A client's request of some kinds, or the sweeper waking up. -/
def ServesSwept (env : Env) (kinds : Request → Bool) (p : SweptProg) : Prop :=
  (∃ r : Request, (r.WellFormed ∧ kinds r = true) ∧ p = (r.handler env).discard.tag .client) ∨
    ∃ n, p = (Handler.discard sweepOnce).tag (.sweeper n)

/-- A sweep has the number of its place. -/
def Numbered (i : Nat) (party : Party) : Prop := party = .client ∨ party = .sweeper i

instance instDecidableNumbered (i : Nat) (party : Party) : Decidable (Numbered i party) :=
  inferInstanceAs (Decidable (_ ∨ _))

/-- The configurations the server reaches from the empty store, requests of some kinds beside
    any number of sweeps. -/
abbrev Swept (env : Env) (kinds : Request → Bool) (Guard : SweptConfig → Nat → Party × Op → Prop) : SweptConfig → Prop :=
  Reach (logged (fun l => exec env l.2) counts) (.tagged fun party => (discipline env).prod (sweeping party)) (.start, .start)
    (ServesSwept env kinds) (fun c i l => Numbered i l.1 ∧ Guard c i l) (.empty, [])

/-- After the last listing of the sweep the row was stored. -/
def StoredSince (log : List (Party × Op)) (n : Nat) (key : ManifestKey) : Prop :=
  ∃ l ∈ log.takeWhile (fun l => !(decide (l.1 = .sweeper n) && l.2.lists)), ∃ key', l.2.stores = some key' ∧ key'.encode = key.encode

/-- The row the sweep overwrites is no newer than the listed manifest it decided on, and in
    the same state. -/
def MeetsDecided (c : SweptConfig) (i : Nat) (l : Party × Op) : Prop :=
  l.1 ≠ .client → ∀ key row m, l.2.overwrites = some key → c.world.1.db.objects.get key.encode = some row →
    (c.ghosts i).2.decided l.2 = some m → row.state = m.state ∧ row.createdAt ≤ m.createdAt

/-- No row is stored that a sweep is still to overwrite, be it another or the one that stores
    it. -/
def SparesDecided (env : Env) (c : SweptConfig) (i : Nat) (l : Party × Op) : Prop :=
  ∀ stored key, l.2.stores = some stored → l.2.storesRow (exec env l.2 c.world.1).1 = true → stored.encode = key.encode →
    (∀ j, j ≠ i → ¬ Overwriting env (c.pool j).2 key) ∧
      (l.1 ≠ .client → ∀ k, (c.pool i).2 = .call l k → ¬ Overwriting env (k (exec env l.2 c.world.1).1) key)

theorem exec_lists {env : Env} {w : World} {gs : Nat → Ghost} (h : Tidy env w gs) (op : Op) : op.Lists (exec env op w).1 := by
  cases op with
  | metaOp op =>
    cases op with
    | listAllManifestsInBucket bucket =>
      have hmem : ∀ m ∈ handleListAllManifestsInBucket w.db bucket, (∃ r ∈ w.db.objects.rows, r.2 = m) ∧ m.key.bucket = bucket := by
        intro m hm
        simp only [handleListAllManifestsInBucket, bucketRange, List.mem_filter, List.mem_map, decide_eq_true_eq] at hm
        obtain ⟨⟨r, hr, rfl⟩, hb⟩ := hm
        exact ⟨⟨r, (Table.mem_range.mp hr).1, rfl⟩, hb⟩
      intro m hm
      obtain ⟨⟨r, hr, rfl⟩, hb⟩ := hmem m hm
      refine ⟨hb, (h.rows r hr).2.settled, fun m' hm' hkey => ?_⟩
      obtain ⟨⟨r', hr', rfl⟩, -⟩ := hmem m' hm'
      have hrow : r'.1 = r.1 := by rw [(h.rows r' hr').1, (h.rows r hr).1, hkey]
      have hget := Table.get_of_mem hr'
      rw [hrow, Table.get_of_mem hr] at hget
      exact (Option.some.inj hget).symm
    | _ => trivial
  | _ => trivial

section
variable {env : Env} {kinds : Request → Bool} {Guard : SweptConfig → Nat → Party × Op → Prop} {c : SweptConfig}

theorem servesSwept_follows {p : SweptProg} (hp : ServesSwept env kinds p) :
    p.Follows (.tagged fun party => (discipline env).prod (sweeping party)) (fun _ _ => True) (.start, .start) := by
  rcases hp with ⟨r, hr, rfl⟩ | ⟨n, rfl⟩
  · rw [Prog.follows_tag]
    have hidle := Prog.follows_of_ok (P := sweeping .client) (fun _ _ h => absurd rfl h) (r.handler env).discard .start
    exact ((request_keeps hr.1).discard.prod hidle).mono fun _ _ _ => trivial
  · rw [Prog.follows_tag]
    exact ((sweep_keeps rfl).discard.prod sweepOnce_decides.discard).mono fun _ _ _ => trivial

theorem swept_step (henv : env.Sane) {i : Nat} {l : Party × Op} (ht : Tidy env c.world.1 (Prod.fst ∘ c.ghosts))
    (hok : (c.ghosts i).1.Allows env l.2) : l.2.Sound env (exec env l.2 c.world.1).1 ∧ l.2.Lists (exec env l.2 c.world.1).1 ∧
      Tidy env (exec env l.2 c.world.1).2
        (Function.update (Prod.fst ∘ c.ghosts) i ((c.ghosts i).1.next l.2 (exec env l.2 c.world.1).1)) := by
  obtain ⟨hsound, htidy⟩ := tidy_step henv ht l.2 hok
  exact ⟨hsound, exec_lists ht l.2, htidy⟩

theorem swept_sound (henv : env.Sane) (h : Swept env kinds Guard c) : Tidy env c.world.1 (Prod.fst ∘ c.ghosts) ∧
    ∀ i, (c.pool i).2.Follows (.tagged fun party => (discipline env).prod (sweeping party)) (fun _ _ => True) (c.ghosts i) := by
  refine Reach.sound (I := fun w gs => Tidy env w.1 (Prod.fst ∘ gs)) (Tidy.empty env) ?_ ?_ (fun p hp => servesSwept_follows hp) h
  · intro w gs i hi
    rw [Function.comp_update]
    exact hi.idle i
  · intro c i l hi hok _
    obtain ⟨hsound, hlists, htidy⟩ := swept_step henv hi hok.1
    rw [Function.comp_update]
    exact ⟨⟨hsound, hlists⟩, htidy⟩

/-- The operations of a program are all of one party. -/
theorem swept_ofLabel (h : Swept env kinds Guard c) (i : Nat) : ∃ party, (c.pool i).2.OfLabel party := by
  refine h.pool (K := fun p => ∃ party, p.OfLabel party) ⟨.client, trivial⟩ (fun _ _ r hk => ?_) (fun p hp => ?_) i
  · obtain ⟨party, hof⟩ := hk
    exact ⟨party, hof.2 r trivial⟩
  · rcases hp with ⟨r, -, rfl⟩ | ⟨n, rfl⟩
    · exact ⟨_, Prog.ofLabel_tag _ _⟩
    · exact ⟨_, Prog.ofLabel_tag _ _⟩

/-- Where there is a row to replace, it is done away with: the id of another marker is new. -/
theorem displaces_of_present {w : World} {gs : Nat → Ghost} {i : Nat} {op : Op} (ht : Tidy env w gs) (hok : (gs i).Allows env op)
    {key : ManifestKey} {row : Manifest} (hkey : op.overwrites = some key) (hrow : w.db.objects.get key.encode = some row) :
    op.displaces = some key := by
  cases op with
  | metaOp op =>
    cases op with
    | deleteManifest key' => exact hkey
    | putManifest m =>
      cases hkey
      have hwrites : Writes env (gs i) m := hok
      obtain ⟨henc, hm⟩ := ht.row hrow
      have hsame := ManifestKey.encode_injective hwrites.clear hm.clear henc
      simp only [Op.displaces]
      rcases hwrites.version with hnull | hdrawn
      · rw [if_pos hnull]
      · exact absurd (congrArg ManifestKey.versionId hsame).symm (ht.unstored i _ hdrawn _ (Table.mem_rows.mpr hrow))
    | _ => cases hkey
  | _ => cases hkey

/-- A listing of its own is the start of what a sweep has to know of. -/
theorem not_storedSince_of_lists {log : List (Party × Op)} {i : Nat} {op : Op} (h : op.lists = true) (key : ManifestKey) :
    ¬ StoredSince ((.sweeper i, op) :: log) i key := by
  intro hs
  obtain ⟨l, hl, -⟩ := hs
  rw [List.takeWhile_cons_of_neg (by simp [h])] at hl
  cases hl

theorem StoredSince.of_cons {log : List (Party × Op)} {n : Nat} {l : Party × Op} {key : ManifestKey} (h : StoredSince (l :: log) n key) :
    (∃ key', l.2.stores = some key' ∧ key'.encode = key.encode) ∨ StoredSince log n key := by
  obtain ⟨x, hx, hkey⟩ := h
  rw [List.takeWhile_cons] at hx
  split at hx
  · rcases List.mem_cons.mp hx with rfl | hx
    · exact Or.inl hkey
    · exact Or.inr ⟨x, hx, hkey⟩
  · cases hx

/-- What a step logs, it stored, or listed. -/
theorem StoredSince.of_step {l : Party × Op} {n : Nat} {key : ManifestKey}
    (h : StoredSince (logged (fun l => exec env l.2) counts l c.world).2.2 n key) :
    (∃ stored, l.2.stores = some stored ∧ l.2.storesRow (exec env l.2 c.world.1).1 = true ∧ stored.encode = key.encode) ∨
      StoredSince c.world.2 n key := by
  unfold logged at h
  dsimp only at h
  split at h
  · rename_i hcounts
    rcases h.of_cons with ⟨stored, hstored, hkey⟩ | h
    · refine Or.inl ⟨stored, hstored, ?_, hkey⟩
      have hlists : l.2.lists = false := by
        generalize l.2 = op at hstored
        cases op with
        | metaOp op => cases op <;> first | rfl | cases hstored
        | _ => cases hstored
      unfold counts at hcounts
      rw [hlists, hstored, Bool.false_or, Option.isSome_some, Bool.true_and] at hcounts
      exact hcounts
    · exact Or.inr h
  · exact Or.inr h

/-- A row that a sweep is still to overwrite was not stored after its listing. -/
theorem overwriting_unstored (henv : env.Sane) (hguard : ∀ c i l, Guard c i l → SparesDecided env c i l) (h : Swept env kinds Guard c) :
    ∀ j key, Overwriting env (c.pool j).2 key → ¬ StoredSince c.world.2 j key := by
  have hret : ∀ {key : ManifestKey}, ¬ Overwriting env (.ret ()) key := by
    intro key ho
    cases ho
  induction h with
  | init => exact fun j key ho => absurd ho hret
  | @start c i p _ _ hp ih =>
    intro j key ho
    rw [c.set_pool] at ho
    split at ho
    · exact absurd rfl (ho.listed (servesSwept_follows hp))
    · exact ih j key ho
  | @drop c i _ ih =>
    intro j key ho
    rw [c.set_pool] at ho
    split at ho
    · exact absurd ho hret
    · exact ih j key ho
  | @step c i l k hreach hk hg ih =>
    intro j key ho hs
    obtain ⟨hnumber, hg⟩ := hg
    obtain ⟨ht, hfollows⟩ := swept_sound henv hreach
    have hpool : ((c.perform (logged (fun l => exec env l.2) counts) (.tagged fun party => (discipline env).prod (sweeping party)) i l k).pool
        j).2 = if j = i then k (exec env l.2 c.world.1).1 else (c.pool j).2 := by
      refine (congrArg Prod.snd (c.set_pool i j _ _)).trans ?_
      split <;> rfl
    rw [hpool] at ho
    by_cases hj : j = i
    · subst hj
      rw [if_pos rfl] at ho
      obtain ⟨party, op⟩ := l
      -- what is left after the step is a sweep's, so the step was; and its number is its place
      obtain ⟨of, hof⟩ := swept_ofLabel hreach j
      rw [hk] at hof
      obtain ⟨n, hn⟩ := ho.sweeper (hof.2 _ trivial)
      obtain rfl : party = of := hof.1
      subst hn
      have hplace : Party.sweeper n = .sweeper j := by
        rcases hnumber with h | h
        · cases h
        · exact h
      cases hplace
      cases hlists : op.lists with
      | true =>
        refine @not_storedSince_of_lists c.world.2 j op hlists key ?_
        have hcounts : counts (.sweeper j, op) (exec env op c.world.1).1 = true := by
          unfold counts
          rw [hlists, Bool.true_or]
        change StoredSince (logged (fun l => exec env l.2) counts (.sweeper j, op) c.world).2.2 j key at hs
        unfold logged at hs
        rw [if_pos hcounts] at hs
        exact hs
      | false =>
        have hf := hfollows j
        rw [hk] at hf
        obtain ⟨hsound, -, -⟩ := swept_step henv ht hf.1.1
        rcases hs.of_step with ⟨stored, hstored, hrow, hkey⟩ | hs
        · exact (hguard c j _ hg stored key hstored hrow hkey).2 (by intro h; cases h) k hk ho
        · refine ih j key ?_ hs
          rw [hk]
          exact .later _ hlists hsound ho
    · rw [if_neg hj] at ho
      rcases hs.of_step with ⟨stored, hstored, hrow, hkey⟩ | hs
      · exact (hguard c i l hg stored key hstored hrow hkey).1 j hj ho
      · exact ih j key ho hs

end

def expire2Days : Bytes :=
  str "<LifecycleConfiguration><Rule><Status>Enabled</Status><Expiration><Days>2</Days></Expiration></Rule></LifecycleConfiguration>"

/-- An environment that parses one rule, with a clock that counts days. -/
def expiryEnv : Env :=
  { sampleEnv with
    xmlLifecycle := fun b => if b = expire2Days then .ok [⟨none, str "Enabled", none, some 2, none, none⟩] else .error []
    now := fun n => n * nanosPerDay }

theorem expiryEnv_sane : expiryEnv.Sane := ⟨sampleEnv_sane.uuid_injective, sampleEnv_sane.uuid_clear, sampleEnv_sane.uuid_ne_null⟩

def Event.sweptMove (env : Env) : Event → Move (Party × Op) (fun l => l.2.Res)
  | request i r => .start i ((r.handler env).discard.tag .client)
  | sweep i => .start i ((Handler.discard sweepOnce).tag (.sweeper i))
  | steps i n => .steps i n

def playSwept (check : SweptConfig → Nat → Party × Op → Bool) (events : List Event) : Option SweptConfig :=
  (⟨(.empty, []), fun _ => ((.start, .start), .ret ())⟩ : SweptConfig).play (logged (fun l => exec expiryEnv l.2) counts)
    (.tagged fun party => (discipline expiryEnv).prod (sweeping party)) (.start, .start)
    (fun c i l => decide (Numbered i l.1) && check c i l) (events.map (Event.sweptMove expiryEnv))

/-- The requests that write objects, and those that set up their bucket. -/
def Request.fillsBucket : Request → Bool
  | .createBucket .. | .putBucketLifecycle .. | .createMultipartUpload .. | .uploadPart .. | .putObject .. | .copyObject ..
  | .completeMultipartUpload .. => true
  | _ => false

theorem swept_exists {Guard : SweptConfig → Nat → Party × Op → Prop} (check : SweptConfig → Nat → Party × Op → Bool)
    (hcheck : ∀ c i l, c.Quiet (.start, .start) 2 → check c i l = true → Guard c i l) (events : List Event)
    (hfits : events.all (Event.fits Request.fillsBucket true 2) = true) (Q : SweptConfig → Bool)
    (hplay : (playSwept check events).any Q = true) : ∃ c, Swept expiryEnv Request.fillsBucket Guard c ∧ Q c = true := by
  refine Reach.exists_play (n := 2) (fun c i l hq h => ?_) (fun m hm => ?_) hplay
  · obtain ⟨hnumber, h⟩ := Bool.and_eq_true_iff.mp h
    exact ⟨of_decide_eq_true hnumber, hcheck c i l hq h⟩
  obtain ⟨e, he, rfl⟩ := List.mem_map.mp hm
  have hfit := List.all_eq_true.mp hfits e he
  cases e with
  | request i r =>
    simp only [Event.fits, Bool.and_eq_true, decide_eq_true_eq] at hfit
    exact ⟨hfit.1.1, Or.inl ⟨r, ⟨hfit.1.2, hfit.2⟩, rfl⟩⟩
  | sweep i =>
    simp only [Event.fits, Bool.and_eq_true, decide_eq_true_eq] at hfit
    exact ⟨hfit.1, Or.inr ⟨i, rfl⟩⟩
  | steps i m =>
    have hi : i < 2 := of_decide_eq_true hfit
    exact hi

/-- A sweep overwrites nothing, and program 0 stores only while program 1 is not at work. -/
def aside (c : SweptConfig) (i : Nat) (l : Party × Op) : Bool :=
  (l.2.overwrites.isNone || decide (l.1 = .client)) &&
    (l.2.stores.isNone || decide (l.1 = .client ∧ i = 0) && (c.pool 1).2.pending.isNone)

theorem meetsDecided_of_aside {c : SweptConfig} {i : Nat} {l : Party × Op} (h : aside c i l = true) : MeetsDecided c i l := by
  obtain ⟨h, -⟩ := Bool.and_eq_true_iff.mp h
  intro hl key row m hkey
  rw [hkey, decide_eq_false hl] at h
  cases h

theorem sparesDecided_of_aside {env : Env} {c : SweptConfig} {i : Nat} {l : Party × Op} (hq : c.Quiet (.start, .start) 2)
    (h : aside c i l = true) : SparesDecided env c i l := by
  obtain ⟨-, h⟩ := Bool.and_eq_true_iff.mp h
  intro stored key hstored _ _
  rw [hstored] at h
  obtain ⟨hclient, hidle⟩ := Bool.and_eq_true_iff.mp h
  obtain ⟨hparty, rfl⟩ := of_decide_eq_true hclient
  constructor
  · intro j hj ho
    have hnone : (c.pool j).2.pending = none := by
      by_cases h1 : j = 1
      · subst h1
        exact Option.isNone_iff_eq_none.mp hidle
      · rw [hq j (by omega)]
        rfl
    cases hp : (c.pool j).2 with
    | ret a =>
      rw [hp] at ho
      cases ho
    | call op k =>
      rw [hp] at hnone
      cases hnone
  · intro hl
    exact absurd hparty hl

/-- A bucket with a rule and an object, and a sweep that has decided to expire the object. -/
def expiring : List Event :=
  [.request 0 (.createBucket (str "bucket") []), .steps 0 2,
    .request 0 (.putBucketLifecycle (str "bucket") expire2Days), .steps 0 1,
    .request 0 (.putObject (str "bucket") (str "k") [] (str "a")), .steps 0 4, .sweep 1, .steps 1 3]

/-- The sweep is about to delete a row that passes the test. -/
def deletes (c : SweptConfig) (test : ManifestKey → Manifest → Bool) : Bool :=
  match (c.pool 1).2 with
  | .call (.sweeper _, .metaOp (.deleteManifest key)) _ => (c.world.1.db.objects.get key.encode).any (test key)
  | _ => false

/-- The object is overwritten before it is deleted. -/
def overwrittenFirst : List Event :=
  expiring ++ [.request 0 (.putObject (str "bucket") (str "k") [] (str "b")), .steps 0 4]

end S3lite
