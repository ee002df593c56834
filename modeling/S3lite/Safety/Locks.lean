/-
  S3lite.Safety.Locks — retention, legal hold and deletion racing for one object version.

  Each of the three requests loads the manifest, decides, and acts in a later step. The log
  beside the world has the row transactions that succeeded, each with its request.
  - `LocksKept`: the date of a retention is kept or extended until it has passed, and a
    legal hold is what the last request for one set it to.
  - `locks_kept`: so it is in every run in which each request acts on a row that still has
    the lock it loaded. A date loaded before another is stored shortens it
    (`retention_is_shortened`).
-/
import S3lite.Safety.Pool

namespace S3lite

open Handler

/-! ## What the requests ask for -/

/-- Retention and legal hold of a version, and the deletion of one. -/
def Request.locksVersion : Request → Bool
  | .putObjectRetention .. | .putObjectLegalHold .. => true
  | .deleteObject _ _ versionId => versionId.isSome
  | _ => false

/-- The date of a request for retention. -/
def Request.retainUntil (env : Env) : Request → Option Time
  | .putObjectRetention _ _ _ body =>
    match env.xmlRetention body with
    | .ok xml => env.parseRfc3339 xml.2
    | .error _ => none
  | _ => none

/-- The flag of a request for a legal hold. -/
def Request.legalHold (env : Env) : Request → Option Bool
  | .putObjectLegalHold bucket key _ body =>
    match env.xmlLegalHold body with
    | .ok status => (legalHoldOf bucket key status).toOption
    | .error _ => none
  | _ => none

theorem Request.legalHold_of_retainUntil {env : Env} {r : Request} {d : Time} (h : r.retainUntil env = some d) :
    r.legalHold env = none := by
  cases r with
  | putObjectLegalHold bucket key versionId body => cases h
  | _ => rfl

theorem retainUntil_of_parsed {env : Env} {bucket key : Str} {versionId : Option Str} {body : Bytes} {f : Str → S3Error}
    {xml : Str × Str} (hxml : (env.xmlRetention body).mapError f = .ok xml) {d : Time} (hd : env.parseRfc3339 xml.2 = some d) :
    (Request.putObjectRetention bucket key versionId body).retainUntil env = some d := by
  cases hx : env.xmlRetention body with
  | ok x =>
    rw [hx] at hxml
    cases hxml
    simp only [Request.retainUntil, hx]
    exact hd
  | error e =>
    rw [hx] at hxml
    cases hxml

theorem legalHold_of_parsed {env : Env} {bucket key : Str} {versionId : Option Str} {body : Bytes} {f : Str → S3Error}
    {status : Str} (hstatus : (env.xmlLegalHold body).mapError f = .ok status) {on : Bool}
    (hon : legalHoldOf bucket key status = .ok on) :
    (Request.putObjectLegalHold bucket key versionId body).legalHold env = some on := by
  cases hx : env.xmlLegalHold body with
  | ok x =>
    rw [hx] at hstatus
    cases hstatus
    simp only [Request.legalHold, hx, hon]
    rfl
  | error e =>
    rw [hx] at hstatus
    cases hstatus

/-! ## The requests' steps -/

/-- What a request holds between its steps: the manifest it loaded, the time it read. -/
structure Read where
  loaded : Option Manifest
  now : Option Time

def Read.start : Read := ⟨none, none⟩

def Read.next (g : Read) : (op : Op) → op.Res → Read
  | .metaOp (.getManifest _), r => { g with loaded := r }
  | .metaOp (.getLatestVersion ..), r => { g with loaded := r }
  | .nowUtc, t => { g with now := some t }
  | _, _ => g

/-- The lock stored is the one loaded with a date no earlier, or with another flag. -/
def StoresLock (env : Env) (r : Request) (old new : Option ObjectLock) : Prop :=
  (∃ mode d, r.retainUntil env = some d ∧ new = some ⟨some ⟨mode, d⟩, old.any (·.legalHold)⟩ ∧
    ∀ l ∈ old, ∀ existing ∈ l.retention, existing.retainUntil ≤ d) ∨
  ∃ on, r.legalHold env = some on ∧ r.retainUntil env = none ∧ new = some ⟨old.bind (·.retention), on⟩

def locking (env : Env) : Prog.Protocol (Request × Op) (fun l => l.2.Res) Read where
  ok := fun g l => match l with
    | (r, .metaOp (.updateManifestLock _ lock)) => ∃ m, g.loaded = some m ∧ StoresLock env r m.objectLock lock
    | (_, .metaOp (.deleteManifest _)) => ∀ m l, g.loaded = some m → m.objectLock = some l →
      ∃ t, g.now = some t ∧ l.forbidsDelete t = false
    | (_, .metaOp op) => op.keepsRows = true
    | _ => True
  res := fun _ _ _ => True
  next := fun g l r => g.next l.2 r

section
variable {env : Env} {r : Request}

theorem locking_allowsGc : AllowsGc ((locking env).at r) := ⟨fun _ _ => rfl, fun _ _ => trivial, fun _ _ => rfl⟩

theorem locking_loadTarget {bucket key : Str} {versionId : Option Str} {g : Read} {Q : Manifest → Read → Prop}
    (hq : ∀ m, Q m { g with loaded := some m }) : Keeps ((locking env).at r) (loadTarget bucket key versionId) g Q := by
  unfold loadTarget
  have hfound : ∀ found m, found.filter (fun m => m.state = .committed ∧ m.kind = .object) = some m →
      Q m { g with loaded := found } := by
    intro found m h
    obtain ⟨rfl, -⟩ := Option.filter_eq_some_iff.mp h
    exact hq m
  cases versionId with
  | some vid =>
    simp only [keeps_bind, lookupVersion, keeps_op, keeps_orFail]
    exact ⟨rfl, fun found _ m h => hfound found m h⟩
  | none =>
    simp only [keeps_bind, lookupVersion, keeps_op, keeps_orFail]
    exact ⟨rfl, fun found _ m h => hfound found m h⟩

theorem locking_putObjectRetention {bucket key : Str} {versionId : Option Str} {body : Bytes} {g : Read} :
    Keeps ((locking env).at (.putObjectRetention bucket key versionId body)) (putObjectRetention env bucket key versionId body) g
      fun _ _ => True := by
  unfold putObjectRetention
  simp only [keeps_bind, keeps_ofExcept, keeps_orFail]
  intro xml hxml mode _ d hd
  refine locking_loadTarget fun m => ?_
  simp only [keeps_ensure, keeps_op, keeps_mapErr, keeps_ok, implies_true, and_true]
  intro hextends
  exact ⟨m, rfl, Or.inl ⟨mode, d, retainUntil_of_parsed hxml hd, rfl, hextends⟩⟩

theorem locking_putObjectLegalHold {bucket key : Str} {versionId : Option Str} {body : Bytes} {g : Read} :
    Keeps ((locking env).at (.putObjectLegalHold bucket key versionId body)) (putObjectLegalHold env bucket key versionId body) g
      fun _ _ => True := by
  unfold putObjectLegalHold
  simp only [keeps_bind, keeps_ofExcept]
  intro status hstatus on hon
  refine locking_loadTarget fun m => ?_
  simp only [keeps_op, keeps_mapErr, keeps_ok, implies_true, and_true]
  exact ⟨m, rfl, Or.inr ⟨on, legalHold_of_parsed hstatus hon, rfl, rfl⟩⟩

theorem locking_deleteObject {bucket key versionId : Str} {g : Read} :
    Keeps ((locking env).at (.deleteObject bucket key (some versionId))) (deleteObject bucket key (some versionId)) g
      fun _ _ => True := by
  unfold deleteObject requireBucket
  simp only [keeps_bind, keeps_op, keeps_orFail]
  refine ⟨rfl, fun _ _ cfg _ => ?_⟩
  unfold deleteSpecificVersion
  simp only [keeps_bind, keeps_op]
  refine ⟨rfl, fun found _ => ?_⟩
  have hremove : ∀ g : Read, (∀ m l, g.loaded = some m → m.objectLock = some l →
      ∃ t, g.now = some t ∧ l.forbidsDelete t = false) →
      Keeps ((locking env).at (.deleteObject bucket key (some versionId))) (removeManifest ⟨bucket, key, versionId⟩) g fun _ _ => True := by
    intro g hg
    unfold removeManifest
    simp only [keeps_bind, keeps_op]
    refine ⟨hg, fun res _ => ?_⟩
    cases res with
    | ok effect =>
      simp only [keeps_bind]
      exact locking_allowsGc.gcFreedParts fun _ => keeps_ok.mpr trivial
    | error e =>
      cases e <;> first | exact keeps_ok.mpr trivial | exact keeps_fail
  unfold checkNotLocked
  split
  · rename_i hnone
    rw [keeps_ok]
    refine (hremove _ fun m l hm hl => ?_).mono fun _ _ _ => keeps_ok.mpr trivial
    cases hm
    rw [Option.bind_some, hl] at hnone
    cases hnone
  · rename_i lock hlock
    simp only [keeps_bind, keeps_op, keeps_ensure]
    refine ⟨trivial, fun now _ hfree => ?_⟩
    refine (hremove _ fun m l hm hl => ?_).mono fun _ _ _ => keeps_ok.mpr trivial
    cases hm
    rw [Option.bind_some, hl] at hlock
    cases hlock
    exact ⟨now, rfl, hfree⟩

theorem locking_follows (h : r.locksVersion = true) :
    ((r.handler env).discard.tag r).Follows (locking env) (fun _ _ => True) .start := by
  rw [Prog.follows_tag]
  cases r with
  | putObjectRetention bucket key versionId body => exact locking_putObjectRetention.discard
  | putObjectLegalHold bucket key versionId body => exact locking_putObjectLegalHold.discard
  | deleteObject bucket key versionId =>
    cases versionId with
    | none => cases h
    | some versionId => exact locking_deleteObject.discard
  | _ => cases h

end

/-! ## What is kept -/

/-- The manifest is retained until the date or a later one. -/
def Manifest.RetainedUntil (m : Manifest) (d : Time) : Prop :=
  ∃ l r, m.objectLock = some l ∧ l.retention = some r ∧ d ≤ r.retainUntil

/-- The flag the last request for a legal hold stored in the row. -/
def lastHold (env : Env) (slot : Bytes) (log : List (Request × Op)) : Option Bool :=
  log.findSome? fun l => match l.2 with
    | .metaOp (.updateManifestLock key _) => if key.encode = slot then l.1.legalHold env else none
    | _ => none

/-- What has been stored holds: a retention until its date has been read on the clock, also
    against removal, and a legal hold until another request for one. -/
structure LocksKept (env : Env) (w : World × List (Request × Op)) : Prop where
  retained : ∀ r key lock d, (r, Op.metaOp (.updateManifestLock key lock)) ∈ w.2 → r.retainUntil env = some d →
    (∀ m, w.1.db.objects.get key.encode = some m → m.RetainedUntil d) ∧
      (w.1.db.objects.get key.encode = none → ∃ n < w.1.clock, d ≤ env.now n)
  held : ∀ slot m on, w.1.db.objects.get slot = some m → lastHold env slot w.2 = some on →
    ∃ l, m.objectLock = some l ∧ l.legalHold = on

section
variable {env : Env} {w w' : World × List (Request × Op)} {r : Request} {key : ManifestKey} {row : Manifest}

theorem LocksKept.mono (h : LocksKept env w) (hobjects : w'.1.db.objects = w.1.db.objects) (hlog : w'.2 = w.2)
    (hclock : w.1.clock ≤ w'.1.clock) : LocksKept env w' := by
  constructor
  · intro r key lock d hm hd
    rw [hlog] at hm
    rw [hobjects]
    obtain ⟨hkept, hgone⟩ := h.retained r key lock d hm hd
    refine ⟨hkept, fun hnone => ?_⟩
    obtain ⟨n, hn, hle⟩ := hgone hnone
    exact ⟨n, by omega, hle⟩
  · rw [hobjects, hlog]
    exact h.held

theorem StoresLock.retained {old new : Option ObjectLock} (hs : StoresLock env r old new) {d : Time} {l : ObjectLock}
    {ret : Retention} (hl : old = some l) (hret : l.retention = some ret) (hd : d ≤ ret.retainUntil) :
    ∃ l ret, new = some l ∧ l.retention = some ret ∧ d ≤ ret.retainUntil := by
  subst hl
  rcases hs with ⟨mode, d', -, rfl, hextends⟩ | ⟨on, -, -, rfl⟩
  · exact ⟨_, _, rfl, rfl, le_trans hd (hextends l rfl ret hret)⟩
  · exact ⟨_, ret, rfl, hret, hd⟩

theorem LocksKept.store {lock : Option ObjectLock} (h : LocksKept env w) (hrow : w.1.db.objects.get key.encode = some row)
    (hs : StoresLock env r row.objectLock lock)
    (hobjects : w'.1.db.objects = w.1.db.objects.insert key.encode { row with objectLock := lock })
    (hlog : w'.2 = (r, .metaOp (.updateManifestLock key lock)) :: w.2) (hclock : w.1.clock ≤ w'.1.clock) : LocksKept env w' := by
  constructor
  · intro r' key' lock' d hm hd
    rw [hlog] at hm
    rw [hobjects]
    rcases List.mem_cons.mp hm with hm | hm
    · cases hm
      rw [Table.get_insert_self]
      refine ⟨fun m hm => ?_, fun hnone => by cases hnone⟩
      cases hm
      rcases hs with ⟨mode, d', hd', rfl, -⟩ | ⟨on, -, hnone, -⟩
      · rw [hd] at hd'
        cases hd'
        exact ⟨_, _, rfl, rfl, le_rfl⟩
      · rw [hd] at hnone
        cases hnone
    · obtain ⟨hkept, hgone⟩ := h.retained r' key' lock' d hm hd
      by_cases he : key'.encode = key.encode
      · rw [he, Table.get_insert_self]
        refine ⟨fun m hm => ?_, fun hnone => by cases hnone⟩
        cases hm
        rw [he] at hkept
        obtain ⟨l, ret, hl, hret, hle⟩ := hkept row hrow
        exact hs.retained hl hret hle
      · rw [Table.get_insert_ne _ _ he]
        refine ⟨hkept, fun hnone => ?_⟩
        obtain ⟨n, hn, hle⟩ := hgone hnone
        exact ⟨n, by omega, hle⟩
  · intro slot m on hm hon
    rw [hobjects] at hm
    rw [hlog] at hon
    unfold lastHold at hon
    rw [List.findSome?_cons] at hon
    by_cases he : slot = key.encode
    · subst he
      rw [Table.get_insert_self] at hm
      cases hm
      simp only [if_true] at hon
      rcases hs with ⟨mode, d', hd', rfl, -⟩ | ⟨flag, hflag, -, rfl⟩
      · -- a request for retention stores the flag of the row
        rw [Request.legalHold_of_retainUntil hd'] at hon
        obtain ⟨l, hl, hflag⟩ := h.held _ row on hrow hon
        refine ⟨_, rfl, ?_⟩
        rw [hl]
        exact hflag
      · rw [hflag] at hon
        cases hon
        exact ⟨_, rfl, rfl⟩
    · rw [Table.get_insert_ne _ _ he] at hm
      simp only [if_neg (Ne.symm he)] at hon
      exact h.held slot m on hm hon

theorem ObjectLock.retention_passed {l : ObjectLock} {ret : Retention} {t : Time} (h : l.forbidsDelete t = false)
    (hret : l.retention = some ret) : ret.retainUntil ≤ t := by
  unfold ObjectLock.forbidsDelete at h
  split at h
  · cases h
  · rw [hret] at h
    exact not_lt.mp (of_decide_eq_false h)

example : (ObjectLock.mk (some ⟨.compliance, 5⟩) false).forbidsDelete 4 = true ∧
    (ObjectLock.mk (some ⟨.compliance, 5⟩) false).forbidsDelete 5 = false := by decide

theorem LocksKept.remove (r : Request) (h : LocksKept env w) (hrow : w.1.db.objects.get key.encode = some row)
    (hfree : ∀ l, row.objectLock = some l → ∃ n < w.1.clock, l.forbidsDelete (env.now n) = false)
    (hobjects : w'.1.db.objects = w.1.db.objects.erase key.encode) (hlog : w'.2 = (r, .metaOp (.deleteManifest key)) :: w.2)
    (hclock : w.1.clock ≤ w'.1.clock) : LocksKept env w' := by
  constructor
  · intro r' key' lock' d hm hd
    rw [hlog] at hm
    rw [hobjects]
    rcases List.mem_cons.mp hm with hm | hm
    · cases hm
    · obtain ⟨hkept, hgone⟩ := h.retained r' key' lock' d hm hd
      by_cases he : key'.encode = key.encode
      · rw [he, Table.get_erase_self]
        refine ⟨fun m hm => (by cases hm), fun _ => ?_⟩
        rw [he] at hkept
        obtain ⟨l, ret, hl, hret, hle⟩ := hkept row hrow
        obtain ⟨n, hn, hpassed⟩ := hfree l hl
        exact ⟨n, by omega, le_trans hle (ObjectLock.retention_passed hpassed hret)⟩
      · rw [Table.get_erase_ne _ he]
        refine ⟨hkept, fun hnone => ?_⟩
        obtain ⟨n, hn, hle⟩ := hgone hnone
        exact ⟨n, by omega, hle⟩
  · intro slot m on hm hon
    rw [hobjects] at hm
    rw [hlog] at hon
    by_cases he : slot = key.encode
    · rw [he, Table.get_erase_self] at hm
      cases hm
    · rw [Table.get_erase_ne _ he] at hm
      exact h.held slot m on hm hon

/-! ## Runs -/

theorem clock_le_exec (op : Op) (w : World) : w.clock ≤ (exec env op w).2.clock := by
  cases op <;> first | exact le_rfl | exact Nat.le_add_right ..

/-- A time a request holds has been read on the clock. -/
theorem read_step {w : World} {gs : Nat → Read} (h : ∀ j t, (gs j).now = some t → ∃ n < w.clock, env.now n = t) (i : Nat) (op : Op) :
    ∀ j t, (Function.update gs i ((gs i).next op (exec env op w).1) j).now = some t →
      ∃ n < (exec env op w).2.clock, env.now n = t := by
  have hkeep : ∀ j t, (gs j).now = some t → ∃ n < (exec env op w).2.clock, env.now n = t := by
    intro j t ht
    obtain ⟨n, hn, e⟩ := h j t ht
    exact ⟨n, lt_of_lt_of_le hn (clock_le_exec op w), e⟩
  intro j t ht
  by_cases hj : j = i
  · subst hj
    rw [Function.update_self] at ht
    cases op with
    | nowUtc =>
      cases ht
      exact ⟨w.clock, Nat.lt_succ_self _, rfl⟩
    | metaOp op => cases op <;> exact hkeep j t ht
    | _ => exact hkeep j t ht
  · rw [Function.update_of_ne hj] at ht
    exact hkeep j t ht

end

abbrev LockConfig := Config (Request × Op) (fun l => l.2.Res) (World × List (Request × Op)) Read

/-- One of these requests, each of its operations with it. -/
def ServesLocking (env : Env) (p : Prog (Request × Op) (fun l => l.2.Res) Unit) : Prop :=
  ∃ r : Request, r.locksVersion = true ∧ p = (r.handler env).discard.tag r

/-- The configurations these requests reach from a world, with the row transactions that
    succeeded since, the last one first. -/
abbrev Locking (env : Env) (Guard : LockConfig → Nat → Request × Op → Prop) (w0 : World) : LockConfig → Prop :=
  Reach (logged (fun l => exec env l.2) fun l => Op.storesRow l.2) (locking env) .start
    (ServesLocking env) Guard (w0, [])

/-- The row a request writes or removes has the lock that the request loaded. -/
def ActsOnLoaded (c : LockConfig) (i : Nat) (l : Request × Op) : Prop :=
  ∀ key row, (∃ lock, l.2 = .metaOp (.updateManifestLock key lock)) ∨ l.2 = .metaOp (.deleteManifest key) →
    c.world.1.db.objects.get key.encode = some row → ∃ m, (c.ghosts i).loaded = some m ∧ m.objectLock = row.objectLock

/-- Where every request acts on a row that has the lock it loaded: a retention stored is
    kept or extended until its date, and by removals too; a legal hold stored is changed by
    requests for a legal hold only. -/
theorem locks_kept {env : Env} {w0 : World} {c : LockConfig} (h : Locking env ActsOnLoaded w0 c) : LocksKept env c.world := by
  have hsound := Reach.sound
    (I := fun w gs => LocksKept env w ∧ ∀ j t, (gs j).now = some t → ∃ n < w.1.clock, env.now n = t)
    ⟨⟨fun _ _ _ _ hm => (by cases hm), fun _ _ _ _ hon => (by cases hon)⟩, fun _ _ ht => by cases ht⟩ ?_ ?_
    (fun p hp => by obtain ⟨r, hr, rfl⟩ := hp; exact locking_follows hr) h
  · exact hsound.1.1
  · intro w gs i hi
    refine ⟨hi.1, fun j t ht => ?_⟩
    by_cases hj : j = i
    · subst hj
      rw [Function.update_self] at ht
      cases ht
    · rw [Function.update_of_ne hj] at ht
      exact hi.2 j t ht
  · intro c i l hi hok hguard
    obtain ⟨r, op⟩ := l
    refine ⟨trivial, ?_, read_step hi.2 i op⟩
    obtain ⟨hkept, hread⟩ := hi
    have hclock : c.world.1.clock ≤ (exec env op c.world.1).2.clock := clock_le_exec op c.world.1
    cases op with
    | metaOp op =>
      cases op with
      | updateManifestLock key lock =>
        obtain ⟨m, hloaded, hs⟩ := hok
        cases hrow : c.world.1.db.objects.get key.encode with
        | none =>
          refine hkept.mono ?_ ?_ hclock <;>
            simp [logged, exec, MetaOp.exec, handleUpdateManifestLock, updateManifest, hrow, commit_, Except.map, Op.storesRow]
        | some row =>
          obtain ⟨m', hm', hlock⟩ := hguard key row (Or.inl ⟨lock, rfl⟩) hrow
          rw [hloaded] at hm'
          cases hm'
          rw [hlock] at hs
          refine hkept.store hrow hs ?_ ?_ hclock <;>
            simp [logged, exec, MetaOp.exec, handleUpdateManifestLock, updateManifest, hrow, commit_, Except.map, Op.storesRow]
      | deleteManifest key =>
        cases hrow : c.world.1.db.objects.get key.encode with
        | none =>
          refine hkept.mono ?_ ?_ hclock <;>
            simp [logged, exec, MetaOp.exec, handleDeleteManifest, hrow, Op.storesRow]
        | some row =>
          obtain ⟨m, hloaded, hlock⟩ := hguard key row (Or.inr rfl) hrow
          refine hkept.remove r hrow (fun l hl => ?_) ?_ ?_ hclock
          · obtain ⟨t, ht, hfree⟩ := hok m l hloaded (hlock.trans hl)
            obtain ⟨n, hn, rfl⟩ := hread i t ht
            exact ⟨n, hn, hfree⟩
          all_goals simp [logged, exec, MetaOp.exec, handleDeleteManifest, hrow, Op.storesRow]
      | _ =>
        have hkeeps : MetaOp.keepsRows _ = true := hok
        refine hkept.mono (exec_metaOp_keepsRows hkeeps _).1 ?_ hclock
        simp only [logged, storesRow_of_keepsRows hkeeps, Bool.false_eq_true, if_false]
    | _ => exact hkept.mono rfl rfl hclock

def retention2030 : Bytes :=
  str "<Retention><Mode>COMPLIANCE</Mode><RetainUntilDate>2030-01-01T00:00:00Z</RetainUntilDate></Retention>"

def retention2040 : Bytes :=
  str "<Retention><Mode>COMPLIANCE</Mode><RetainUntilDate>2040-01-01T00:00:00Z</RetainUntilDate></Retention>"

/-- An environment that parses two retentions and their dates. -/
def retentionEnv : Env :=
  { sampleEnv with
    xmlRetention := fun b =>
      if b = retention2030 then .ok (str "COMPLIANCE", str "2030-01-01T00:00:00Z")
      else if b = retention2040 then .ok (str "COMPLIANCE", str "2040-01-01T00:00:00Z")
      else .error []
    parseRfc3339 := fun s =>
      if s = str "2030-01-01T00:00:00Z" then some 1893456000000000000
      else if s = str "2040-01-01T00:00:00Z" then some 2208988800000000000
      else none }

/-- The world with one object, under "null". -/
def objectWorld : World :=
  (run retentionEnv (putObject retentionEnv (str "bucket") (str "k") [] (str "a"))
    (run retentionEnv (createBucket retentionEnv (str "bucket") []) .empty).2).2

def retain (i : Nat) (body : Bytes) : Move (Request × Op) (fun l => l.2.Res) :=
  let r : Request := .putObjectRetention (str "bucket") (str "k") (some (str "null")) body
  .start i ((r.handler retentionEnv).discard.tag r)

theorem retain_fits {i n : Nat} {body : Bytes} (hi : i < n) : (retain i body).Fits (ServesLocking retentionEnv) n :=
  ⟨hi, _, rfl, rfl⟩

theorem steps_fits {i m n : Nat} (hi : i < n) :
    (Move.steps i m : Move (Request × Op) (fun l => l.2.Res)).Fits (ServesLocking retentionEnv) n := hi

def playLocks (check : LockConfig → Nat → Request × Op → Bool) (moves : List (Move (Request × Op) (fun l => l.2.Res))) :
    Option LockConfig :=
  (⟨(objectWorld, []), fun _ => (.start, .ret ())⟩ : LockConfig).play (logged (fun l => exec retentionEnv l.2) fun l => Op.storesRow l.2)
    (locking retentionEnv) .start check moves

/-- A schedule of retentions of the object that plays to a configuration of a property. -/
theorem locking_exists {Guard : LockConfig → Nat → Request × Op → Prop} (check : LockConfig → Nat → Request × Op → Bool)
    (hcheck : ∀ c i l, check c i l = true → Guard c i l) (moves : List (Move (Request × Op) (fun l => l.2.Res)))
    (hmoves : ∀ m ∈ moves, m.Fits (ServesLocking retentionEnv) 2) (Q : LockConfig → Bool)
    (hplay : (playLocks check moves).any Q = true) : ∃ c, Locking retentionEnv Guard objectWorld c ∧ Q c = true := by
  exact Reach.exists_play (fun c i l _ h => hcheck c i l h) hmoves hplay

/-- The row has the lock that was loaded. -/
def sameLock (c : LockConfig) (i : Nat) (key : ManifestKey) : Bool :=
  (c.world.1.db.objects.get key.encode).all fun row => (c.ghosts i).loaded.any fun m => decide (m.objectLock = row.objectLock)

def loadedCheck (c : LockConfig) (i : Nat) (l : Request × Op) : Bool :=
  match l.2 with
  | .metaOp (.updateManifestLock key _) => sameLock c i key
  | .metaOp (.deleteManifest key) => sameLock c i key
  | _ => true

theorem actsOnLoaded_of_check {c : LockConfig} {i : Nat} {l : Request × Op} (h : loadedCheck c i l = true) : ActsOnLoaded c i l := by
  intro key row hl hrow
  have hsame : sameLock c i key = true := by
    rcases hl with ⟨lock, hl⟩ | hl <;> simpa [loadedCheck, hl] using h
  unfold sameLock at hsame
  rw [hrow, Option.all_some] at hsame
  obtain ⟨m, hm, hlock⟩ := (Option.any_eq_true _ _).mp hsame
  exact ⟨m, hm, of_decide_eq_true hlock⟩

/-- 2040 is loaded and stored after 2030 was. -/
def extended : List (Move (Request × Op) (fun l => l.2.Res)) :=
  [retain 0 retention2030, .steps 0 2, retain 1 retention2040, .steps 1 2]

theorem locks_kept_extended : ∃ c, Locking retentionEnv ActsOnLoaded objectWorld c ∧ c.world.2.length = 2 ∧
    LocksKept retentionEnv c.world := by
  obtain ⟨c, hc, hn⟩ := locking_exists loadedCheck (fun _ _ _ => actsOnLoaded_of_check) extended
    (by
      simp only [extended, List.forall_mem_cons]
      exact ⟨retain_fits (by omega), steps_fits (by omega), retain_fits (by omega), steps_fits (by omega), fun _ h => (by cases h)⟩)
    (fun c => decide (c.world.2.length = 2)) (by rfl)
  exact ⟨c, hc, of_decide_eq_true hn, locks_kept hc⟩

/-- 2030 is loaded before 2040 is stored, and stored after it. -/
def shortened : List (Move (Request × Op) (fun l => l.2.Res)) :=
  [retain 0 retention2030, retain 1 retention2040, .steps 0 1, .steps 1 2, .steps 0 1]

/-- The row has an earlier date than one stored. -/
def isShortened (w : World) (l : Request × Op) : Bool :=
  match l.2 with
  | .metaOp (.updateManifestLock key _) =>
    (l.1.retainUntil retentionEnv).any fun d => (w.db.objects.get key.encode).any fun m =>
      m.objectLock.any fun lock => lock.retention.any fun r => decide (r.retainUntil < d)
  | _ => false

theorem retention_is_shortened :
    ¬ ∀ w0 c, Locking retentionEnv (fun _ _ _ => True) w0 c → LocksKept retentionEnv c.world := by
  intro hall
  obtain ⟨c, hc, hq⟩ := locking_exists (fun _ _ _ => true) (fun _ _ _ _ => trivial) shortened
    (by
      simp only [shortened, List.forall_mem_cons]
      exact ⟨retain_fits (by omega), retain_fits (by omega), steps_fits (by omega), steps_fits (by omega), steps_fits (by omega),
        fun _ h => (by cases h)⟩)
    (fun c => c.world.2.any (isShortened c.world.1)) (by rfl)
  obtain ⟨⟨r, op⟩, hmem, hless⟩ := List.any_eq_true.mp hq
  unfold isShortened at hless
  split at hless
  · rename_i key lock hop
    obtain ⟨d, hd, hrow⟩ := (Option.any_eq_true _ _).mp hless
    obtain ⟨m, hm, hlock⟩ := (Option.any_eq_true _ _).mp hrow
    obtain ⟨l, hl, hretention⟩ := (Option.any_eq_true _ _).mp hlock
    obtain ⟨ret, hret, hearlier⟩ := (Option.any_eq_true _ _).mp hretention
    have hop : op = .metaOp (.updateManifestLock key lock) := hop
    subst hop
    obtain ⟨l', ret', hl', hret', hle⟩ := ((hall _ c hc).retained r key lock d hmem hd).1 m hm
    rw [hl] at hl'
    cases hl'
    rw [hret] at hret'
    cases hret'
    exact absurd hle (not_le.mpr (of_decide_eq_true hearlier))
  · cases hless

end S3lite
