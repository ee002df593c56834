/-
  S3lite.Safety.Guarded — a version that its lock forbids to delete, and any request.

  The lock is consulted before a row is deleted. What writes a row does not consult it.
  - `guarding`: a request deletes a row only after it has looked the row up and has found it
    uncommitted, unlocked, or unlocked by the clock's reading; and it stores the lock of a row
    only as one of the row it looked up.
  - `Guarded.step`: so every operation but a write into its row keeps the version.
  - `locked_version_kept`: after a request other than PutObjectLegalHold OFF the version is there, with
    its bytes, and its lock is no weaker.
  - `request_spares`: which requests write into the row of a version, by their kind and the bucket's
    versioning.
  - `a_put_replaces_a_held_object`: a PUT in a bucket without versioning.
-/
import S3lite.Safety.Sequential
import S3lite.Safety.Locks
import S3lite.Listing.Positions

namespace S3lite

open Handler

/-! ## What is kept of a version -/

/-- A hold stays on, and the date of a retention does not become earlier. -/
structure ObjectLock.NoWeaker (l l' : ObjectLock) : Prop where
  hold : l.legalHold = true → l'.legalHold = true
  retention : ∀ r, l.retention = some r → ∃ r', l'.retention = some r' ∧ r.retainUntil ≤ r'.retainUntil

/-- The same version, but for its tags and a lock that is no weaker. -/
structure Manifest.KeptAs (m m' : Manifest) : Prop where
  same : m' = { m with tags := m'.tags, objectLock := m'.objectLock }
  lock : ∀ l, m.objectLock = some l → ∃ l', m'.objectLock = some l' ∧ l.NoWeaker l'

/-- The version is still in its row, and the file of each of its parts as it was. -/
structure VersionKept (slot : Bytes) (m : Manifest) (w w' : World) : Prop where
  row : ∃ m', w'.db.objects.get slot = some m' ∧ m.KeptAs m'
  bytes : ∀ p ∈ m.parts, ∃ data, w.files.get p.hash = some data ∧ w'.files.get p.hash = some data

/-- The operation writes a manifest, or a part, into the row. -/
def Op.writesRow (slot : Bytes) : Op → Bool
  | .metaOp (.putManifest m) => decide (m.key.encode = slot)
  | .metaOp (.appendPart key _) => decide (key.encode = slot)
  | .metaOp (.completeMultipartUpload _ m) => decide (m.key.encode = slot)
  | _ => false

namespace ObjectLock

theorem NoWeaker.refl (l : ObjectLock) : l.NoWeaker l := ⟨id, fun r h => ⟨r, h, le_rfl⟩⟩

theorem NoWeaker.trans {a b c : ObjectLock} (h : a.NoWeaker b) (h' : b.NoWeaker c) : a.NoWeaker c := by
  refine ⟨fun hold => h'.hold (h.hold hold), fun r hr => ?_⟩
  obtain ⟨r', hr', hle⟩ := h.retention r hr
  obtain ⟨r'', hr'', hle'⟩ := h'.retention r' hr'
  exact ⟨r'', hr'', le_trans hle hle'⟩

theorem NoWeaker.forbidsDelete {l l' : ObjectLock} (h : l.NoWeaker l') {t : Time} (hl : l.forbidsDelete t = true) :
    l'.forbidsDelete t = true := by
  unfold ObjectLock.forbidsDelete at hl ⊢
  by_cases hold : l.legalHold = true
  · rw [h.hold hold]
    rfl
  · rw [if_neg hold] at hl
    cases hr : l.retention with
    | none =>
      rw [hr] at hl
      cases hl
    | some r =>
      rw [hr] at hl
      obtain ⟨r', hr', hle⟩ := h.retention r hr
      rw [hr']
      split
      · rfl
      · exact decide_eq_true (lt_of_lt_of_le (of_decide_eq_true hl) hle)

end ObjectLock

theorem Manifest.KeptAs.refl (m : Manifest) : m.KeptAs m := ⟨rfl, fun l hl => ⟨l, hl, .refl l⟩⟩

theorem Manifest.KeptAs.tagged {m m' : Manifest} (h : m.KeptAs m') (tags : Table Str Str) : m.KeptAs { m' with tags := tags } := by
  refine ⟨?_, h.lock⟩
  rw [h.same]

/-- What a request for retention stores, and a request that turns a hold on. -/
theorem StoresLock.noWeaker {env : Env} {r : Request} {l : ObjectLock} {new : Option ObjectLock} (hs : StoresLock env r (some l) new)
    (hon : r.legalHold env ≠ some false) : ∃ l', new = some l' ∧ l.NoWeaker l' := by
  rcases hs with ⟨mode, d, -, rfl, hextends⟩ | ⟨on, hflag, -, rfl⟩
  · exact ⟨_, rfl, id, fun ret hret => ⟨_, rfl, hextends l rfl ret hret⟩⟩
  · cases on with
    | false => exact absurd hflag hon
    | true => exact ⟨_, rfl, fun _ => rfl, fun ret hret => ⟨ret, hret, le_rfl⟩⟩

theorem Manifest.KeptAs.relocked {env : Env} {r : Request} {m m' : Manifest} (h : m.KeptAs m') {lock : Option ObjectLock}
    (hs : StoresLock env r m'.objectLock lock) (hon : r.legalHold env ≠ some false) : m.KeptAs { m' with objectLock := lock } := by
  refine ⟨?_, fun l hl => ?_⟩
  · rw [h.same]
  · obtain ⟨l', hl', hweak⟩ := h.lock l hl
    rw [hl'] at hs
    obtain ⟨l'', hl'', hweak'⟩ := hs.noWeaker hon
    exact ⟨l'', hl'', hweak.trans hweak'⟩

/-! ## What a request looks up before it acts -/

structure Looked where
  /-- The last row looked up and what was there, while no row changes. -/
  row : Option (Bytes × Option Manifest)
  /-- The last reading of the clock. -/
  now : Option Time

def Looked.start : Looked := ⟨none, none⟩

namespace Looked

def nextMeta (g : Looked) : (op : MetaOp) → op.Res → Looked
  | .getManifest key, r => { g with row := some (key.encode, r) }
  | .getLatestVersion .., r => { g with row := r.map fun m => (m.key.encode, some m) }
  | .putManifest _, _ | .deleteManifest _, _ | .appendPart .., _ | .completeMultipartUpload .., _ | .updateManifestState .., _
  | .updateManifestTags .., _ | .updateManifestLock .., _ => { g with row := none }
  | _, _ => g

def next (g : Looked) : (op : Op) → op.Res → Looked
  | .metaOp op, r => g.nextMeta op r
  | .nowUtc, t => { g with now := some t }
  | _, _ => g

/-- A row is deleted after it was looked up and its lock, if it has one, was found to have ended;
    and a lock is stored as one of the row looked up. -/
def Allows (env : Env) (r : Request) (g : Looked) : Op → Prop
  | .metaOp (.deleteManifest key) => ∃ found, g.row = some (key.encode, found) ∧ ∀ m, found = some m → m.state = .committed →
      ∀ l, m.objectLock = some l → ∃ t, g.now = some t ∧ l.forbidsDelete t = false
  | .metaOp (.updateManifestLock key lock) => ∃ slot m, g.row = some (slot, some m) ∧ key = m.key ∧ StoresLock env r m.objectLock lock
  | _ => True

end Looked

def guarding (env : Env) (r : Request) : Prog.Protocol Op Op.Res Looked where
  ok := fun g op => g.Allows env r op
  res := fun _ _ _ => True
  next := Looked.next

section
variable {env : Env} {r : Request} {g : Looked}

@[simp] theorem guarding_ok (op : Op) : (guarding env r).ok g op = g.Allows env r op := rfl

@[simp] theorem guarding_res (op : Op) (res : op.Res) : (guarding env r).res g op res = True := rfl

@[simp] theorem guarding_next (op : Op) (res : op.Res) : (guarding env r).next g op res = g.next op res := rfl

/-- Every operation but those that delete a row and store a lock. -/
def Op.Unguarded : Op → Prop
  | .metaOp (.deleteManifest _) | .metaOp (.updateManifestLock ..) => False
  | _ => True

theorem Op.Unguarded.allows {o : Op} (h : o.Unguarded) : g.Allows env r o := by
  cases o with
  | metaOp o =>
    cases o with
    | deleteManifest key => exact absurd h id
    | updateManifestLock key lock => exact absurd h id
    | _ => trivial
  | _ => trivial

theorem reads_unguarded : ReadsAmong Op.Unguarded := by
  intro o _
  cases o with
  | metaOp o => cases o <;> trivial
  | _ => trivial

theorem stores_unguarded : StoresAmong Op.Unguarded :=
  ⟨⟨reads_unguarded.consults, trivial, fun _ => trivial, fun _ => trivial, fun _ => trivial, fun _ => trivial⟩, fun _ => trivial,
    fun _ _ => trivial⟩

theorem Performs.guarded {α : Type} {x : Handler α} (h : Performs Op.Unguarded x) : Keeps (guarding env r) x g fun _ _ => True :=
  Prog.Follows.mono (Prog.Follows.of_only (P := guarding env r) (fun _ _ ho => ho.allows) h g) fun _ _ _ _ _ => trivial

theorem guarding_allowsGc : AllowsGc (guarding env r) := ⟨fun _ _ => trivial, fun _ _ => trivial, fun _ _ => trivial⟩

theorem guarded_gcFreedParts {freed : List Hash} {Q : Unit → Looked → Prop} (hq : ∀ g', Q () g') :
    Keeps (guarding env r) (gcFreedParts freed) g Q := guarding_allowsGc.gcFreedParts hq

theorem guarded_loadTarget {bucket key : Str} {versionId : Option Str} {Q : Manifest → Looked → Prop}
    (hq : ∀ m slot, Q m { g with row := some (slot, some m) }) : Keeps (guarding env r) (loadTarget bucket key versionId) g Q := by
  unfold loadTarget
  cases versionId with
  | some vid =>
    simp only [keeps_bind, lookupVersion, keeps_op, keeps_orFail]
    refine ⟨trivial, fun found _ m h => ?_⟩
    obtain ⟨rfl, -⟩ := Option.filter_eq_some_iff.mp h
    exact hq m _
  | none =>
    simp only [keeps_bind, lookupVersion, keeps_op, keeps_orFail]
    refine ⟨trivial, fun found _ m h => ?_⟩
    obtain ⟨rfl, -⟩ := Option.filter_eq_some_iff.mp h
    exact hq m _

theorem guarded_removeManifest {key : ManifestKey} (hg : g.Allows env r (.metaOp (.deleteManifest key))) :
    Keeps (guarding env r) (removeManifest key) g fun _ _ => True := guarding_allowsGc.removeManifest hg fun _ _ => trivial

/-- A row is looked up, its lock is checked, and it is deleted. -/
theorem guarded_checkAndRemove {β : Type} {bucket key : Str} {target : ManifestKey} {f : Option Manifest → Bool → Handler β}
    (hf : ∀ found b g', Keeps (guarding env r) (f found b) g' fun _ _ => True) :
    Keeps (guarding env r) (do
      let found ← op (.metaOp (.getManifest target))
      checkNotLocked bucket key found
      let removed ← removeManifest target
      f found removed) g fun _ _ => True := by
  rw [keeps_bind, keeps_op]
  refine ⟨trivial, fun found _ => ?_⟩
  have hremove : ∀ g' : Looked, g'.Allows env r (.metaOp (.deleteManifest target)) → Keeps (guarding env r) (do
      let removed ← removeManifest target
      f found removed) g' fun _ _ => True := by
    intro g' hg'
    rw [keeps_bind]
    exact (guarded_removeManifest hg').mono fun b g'' _ => hf found b g''
  unfold checkNotLocked
  split
  · rename_i hnone
    rw [keeps_bind, keeps_ok]
    refine hremove _ ⟨found, rfl, fun m hm _ l hl => ?_⟩
    subst hm
    rw [Option.bind_some, hl] at hnone
    cases hnone
  · rename_i lock hlock
    simp only [keeps_bind (x := op _ >>= _), keeps_bind (x := op _), keeps_op, keeps_ensure]
    refine ⟨trivial, fun now _ hfree => hremove _ ⟨found, rfl, fun m hm _ l hl => ?_⟩⟩
    subst hm
    rw [Option.bind_some, hl] at hlock
    cases hlock
    exact ⟨now, rfl, hfree⟩

theorem guarded_deleteObject (bucket key : Str) (versionId : Option Str) :
    Keeps (guarding env r) (deleteObject bucket key versionId) g fun _ _ => True := by
  simp only [deleteObject, requireBucket, keeps_bind, keeps_op, keeps_orFail]
  refine ⟨trivial, fun _ _ cfg _ => ?_⟩
  split
  · exact guarded_checkAndRemove fun _ _ _ => keeps_ok.mpr trivial
  · split
    · exact guarded_checkAndRemove fun _ _ _ => keeps_ok.mpr trivial
    · exact (performs_insertDeleteMarker stores_unguarded.toPutsAmong _ _ _).guarded
    · exact (performs_insertDeleteMarker stores_unguarded.toPutsAmong _ _ _).guarded

theorem guarded_abortMultipartUpload (bucket key uploadId : Str) :
    Keeps (guarding env r) (abortMultipartUpload bucket key uploadId) g fun _ _ => True := by
  simp only [abortMultipartUpload, findUpload, keeps_bind, keeps_op, keeps_orFail, keeps_mapErr, keeps_ok]
  refine ⟨trivial, fun found _ up hup => ⟨⟨found, rfl, fun m hm hs => ?_⟩, fun _ _ _ _ => guarded_gcFreedParts fun _ => trivial⟩⟩
  subst hm
  obtain ⟨hm, hprogress⟩ := Option.filter_eq_some_iff.mp hup
  cases hm
  rw [hs] at hprogress
  cases hprogress

theorem guarded_putObjectRetention (bucket key : Str) (versionId : Option Str) (body : Bytes) :
    Keeps (guarding env (.putObjectRetention bucket key versionId body)) (putObjectRetention env bucket key versionId body) g
      fun _ _ => True := by
  simp only [putObjectRetention, keeps_bind, keeps_ofExcept, keeps_orFail]
  intro xml hxml mode _ d hd
  refine guarded_loadTarget fun m slot => ?_
  simp only [keeps_ensure, keeps_op, keeps_mapErr, keeps_ok, implies_true, and_true]
  intro hextends
  exact ⟨slot, m, rfl, rfl, Or.inl ⟨mode, d, retainUntil_of_parsed hxml hd, rfl, hextends⟩⟩

theorem guarded_putObjectLegalHold (bucket key : Str) (versionId : Option Str) (body : Bytes) :
    Keeps (guarding env (.putObjectLegalHold bucket key versionId body)) (putObjectLegalHold env bucket key versionId body) g
      fun _ _ => True := by
  simp only [putObjectLegalHold, keeps_bind, keeps_ofExcept]
  intro status hstatus on hon
  refine guarded_loadTarget fun m slot => ?_
  simp only [keeps_op, keeps_mapErr, keeps_ok, implies_true, and_true]
  exact ⟨slot, m, rfl, rfl, Or.inr ⟨on, legalHold_of_parsed hstatus hon, rfl, rfl⟩⟩

theorem request_guarded (r : Request) : Keeps (guarding env r) (r.handler env) g fun _ _ => True := by
  have h := stores_unguarded
  by_cases hreading : r.reading = true
  · exact (reading_performs reads_unguarded.looks (fun _ => reads_unguarded _ rfl) hreading).guarded
  by_cases hconfiguring : r.configuring = true
  · refine (configuring_performs h.consults (fun o ho => ?_) hconfiguring).guarded
    cases o with
    | metaOp o => cases o <;> trivial
    | _ => trivial
  by_cases hstoring : r.storing = true
  · exact (storing_performs h hstoring fun _ _ => trivial).guarded
  by_cases hcompleting : r.completing = true
  · exact (completing_performs h.toPutsAmong (fun _ _ => trivial) hcompleting).guarded
  have htags : ∀ key tags, Op.Unguarded (.metaOp (.updateManifestTags key tags)) := fun _ _ => trivial
  cases r with
  | deleteObject bucket key versionId => exact guarded_deleteObject bucket key versionId
  | abortMultipartUpload bucket key uploadId => exact guarded_abortMultipartUpload bucket key uploadId
  | putObjectRetention bucket key versionId body => exact guarded_putObjectRetention bucket key versionId body
  | putObjectLegalHold bucket key versionId body => exact guarded_putObjectLegalHold bucket key versionId body
  | putObjectTagging bucket key versionId body =>
    exact (performs_bind (performs_loadTarget h.consults.looks _ _ _) fun _ => performs_bind (performs_ofExcept _) fun _ =>
      performs_bind (performs_op (htags _ _)) fun _ => performs_bind (performs_mapErr _ _) fun _ => performs_ok _).guarded
  | deleteObjectTagging bucket key versionId =>
    exact (performs_bind (performs_loadTarget h.consults.looks _ _ _) fun _ => performs_bind (performs_op (htags _ _)) fun _ =>
      performs_bind (performs_mapErr _ _) fun _ => performs_ok _).guarded
  | _ => first | exact absurd rfl hreading | exact absurd rfl hconfiguring | exact absurd rfl hstoring | exact absurd rfl hcompleting

end

/-! ## Every operation -/

/-- The version is kept, and what the request has looked up is there. -/
structure Guarded (slot : Bytes) (m : Manifest) (l : ObjectLock) (w0 w : World) (g : Looked) : Prop where
  kept : VersionKept slot m w0 w
  looked : ∀ s found, g.row = some (s, found) → w.db.objects.get s = found
  now : ∀ t, g.now = some t → l.forbidsDelete t = true

section
variable {env : Env} {w0 w : World} {r : Request} {slot : Bytes} {m : Manifest} {l : ObjectLock} {gh : Ghost} {gr : Ground} {g : Looked}

/-- Where a row counts as looked up after an operation, the operation changed no row. -/
theorem objects_of_looked {op : Op} {x : Bytes × Option Manifest} (h : (g.next op (exec env op w).1).row = some x) :
    (exec env op w).2.db.objects = w.db.objects := by
  cases op with
  | metaOp op =>
    have hstep := exec_objects op (env.now w.clock) (env.now (w.clock + 1)) w.db
    show (op.exec (env.now w.clock) (env.now (w.clock + 1)) w.db).2.objects = w.db.objects
    generalize (op.exec (env.now w.clock) (env.now (w.clock + 1)) w.db).2.objects = o at hstep ⊢
    cases hstep with
    | same => rfl
    | _ => cases h
  | _ => rfl

theorem looked_next (hdb : WellKeyed w.db) (h : ∀ s found, g.row = some (s, found) → w.db.objects.get s = found) (op : Op) :
    ∀ s found, (g.next op (exec env op w).1).row = some (s, found) → (exec env op w).2.db.objects.get s = found := by
  intro s found hrow
  rw [objects_of_looked hrow]
  cases op with
  | metaOp op =>
    cases op with
    | getManifest key =>
      cases hrow
      rfl
    | getLatestVersion bucket key =>
      obtain ⟨m, hm, e⟩ := Option.map_eq_some_iff.mp hrow
      cases e
      obtain ⟨⟨k, hk⟩, -⟩ := mem_versionsOf.mp (get_latest_mem hdb hm)
      obtain ⟨hslot, -⟩ := hdb _ hk
      rw [← hslot]
      exact Table.mem_rows.mp hk
    | putManifest | deleteManifest | appendPart | completeMultipartUpload | updateManifestState | updateManifestTags
    | updateManifestLock => cases hrow
    | _ => exact h s found hrow
  | _ => exact h s found hrow

/-- The version stays in its row, unless the operation writes one there. -/
theorem Guarded.row_step (hdb : WellKeyed w.db) (h : Guarded slot m l w0 w g) (hs : m.state = .committed) (hl : m.objectLock = some l)
    (hon : r.legalHold env ≠ some false) {op : MetaOp} (hok : gh.Allows env (.metaOp op)) (hg : g.Allows env r (.metaOp op))
    (hwrite : Op.writesRow slot (.metaOp op) = false) {o : Objects} (hstep : ObjectsStep op w.db.objects o) :
    ∃ m', o.get slot = some m' ∧ m.KeptAs m' := by
  obtain ⟨m', hm', hkept⟩ := h.kept.row
  obtain ⟨l', hl', hweak⟩ := hkept.lock l hl
  cases hstep with
  | same => exact ⟨m', hm', hkept⟩
  | put m1 =>
    have hne : slot ≠ m1.key.encode := fun e => of_decide_eq_false hwrite e.symm
    exact ⟨m', (Table.get_insert_ne _ _ hne).trans hm', hkept⟩
  | delete k m1 _ hm1 =>
    have hne : slot ≠ k.encode := by
      intro e
      obtain ⟨found, hrow, hfree⟩ := hg
      have hfound := h.looked _ _ hrow
      rw [← e, hm'] at hfound
      have hstate : m'.state = .committed := by rw [hkept.same]; exact hs
      obtain ⟨t, ht, hended⟩ := hfree m' hfound.symm hstate l' hl'
      rw [hweak.forbidsDelete (h.now t ht)] at hended
      cases hended
    exact ⟨m', (Table.get_erase_ne _ hne).trans hm', hkept⟩
  | state k s m1 => exact absurd hok id
  | tags k tags m1 _ hm1 =>
    by_cases e : slot = k.encode
    · subst e
      rw [hm'] at hm1
      cases hm1
      exact ⟨_, Table.get_insert_self .., hkept.tagged tags⟩
    · exact ⟨m', (Table.get_insert_ne _ _ e).trans hm', hkept⟩
  | lock k lock m1 _ hm1 =>
    by_cases e : slot = k.encode
    · subst e
      rw [hm'] at hm1
      cases hm1
      obtain ⟨s, m2, hrow, rfl, hstores⟩ := hg
      have hfound := h.looked _ _ hrow
      have hslot : s = m2.key.encode := (hdb _ (Table.mem_rows.mpr hfound)).1
      have hsame : m2 = m' := by
        rw [hslot, hm'] at hfound
        exact (Option.some.inj hfound).symm
      rw [hsame] at hstores
      exact ⟨_, Table.get_insert_self .., hkept.relocked hstores hon⟩
    · exact ⟨m', (Table.get_insert_ne _ _ e).trans hm', hkept⟩
  | append k part m1 now =>
    have hne : slot ≠ k.encode := fun e => of_decide_eq_false hwrite e.symm
    exact ⟨m', (Table.get_insert_ne _ _ hne).trans hm', hkept⟩
  | complete k m1 up _ hup hprogress =>
    have hne : slot ≠ m1.key.encode := fun e => of_decide_eq_false hwrite e.symm
    have hupload : slot ≠ k.encode := by
      intro e
      rw [← e, hm'] at hup
      cases hup
      rw [hkept.same] at hprogress
      exact absurd (hs.symm.trans hprogress) (by decide)
    exact ⟨m', (Table.get_erase_ne _ hupload).trans ((Table.get_insert_ne _ _ hne).trans hm'), hkept⟩

theorem Guarded.step (h : Guarded slot m l w0 w g) (hsteady : Steady env w gh gr) (hs : m.state = .committed) (hl : m.objectLock = some l)
    (hon : r.legalHold env ≠ some false) (op : Op) (hok : gh.Allows env op) (hg : g.Allows env r op)
    (hwrite : op.writesRow slot = false) (hnow : op = .nowUtc → l.forbidsDelete (env.now w.clock) = true) :
    Guarded slot m l w0 (exec env op w).2 (g.next op (exec env op w).1) := by
  obtain ⟨m', hm', hkept⟩ := h.kept.row
  refine ⟨⟨?_, fun p hp => ?_⟩, looked_next hsteady.tidy.wellKeyed h.looked op, fun t ht => ?_⟩
  · cases op with
    | metaOp op => exact h.row_step hsteady.tidy.wellKeyed hs hl hon hok hg hwrite (exec_objects op _ _ w.db)
    | _ => exact ⟨m', hm', hkept⟩
  · obtain ⟨data, hdata, hnext⟩ := h.kept.bytes p hp
    have hparts : m'.parts = m.parts := by rw [hkept.same]
    exact ⟨data, hdata, hsteady.keeps_file hok (Table.mem_rows.mpr hm') (hparts ▸ hp) hnext⟩
  · cases op with
    | nowUtc =>
      cases ht
      exact hnow rfl
    | metaOp op =>
      have hmeta : ∀ res : op.Res, (g.nextMeta op res).now = g.now := by
        intro res
        cases op <;> rfl
      exact h.now t (hmeta _ ▸ ht)
    | _ => exact h.now t ht

end

/-! ## Every request -/

theorem clock_le_run {env : Env} {α : Type} (p : Prog Op Op.Res α) (w : World) : w.clock ≤ (p.run (exec env) w).2.clock := by
  induction p generalizing w with
  | ret a => exact le_rfl
  | call op k ih => exact (clock_le_exec op w).trans (ih _ _)

/-- The clock is read between the beginning and the end of a run. -/
theorem meets_clock {env : Env} {α : Type} (p : Prog Op Op.Res α) (w : World) :
    p.Meets (exec env) (fun w' op => w.clock ≤ w'.clock ∧ (exec env op w').2.clock ≤ (p.run (exec env) w).2.clock) w := by
  induction p generalizing w with
  | ret a => trivial
  | call op k ih =>
    have hlater := @clock_le_exec env op w
    exact ⟨⟨le_rfl, clock_le_run _ _⟩, (ih _ _).mono fun w' o h => ⟨hlater.trans h.1, h.2⟩⟩

/-- In every world that requests and sweeps reach one after the other, and for every request but
    one that turns a legal hold off: a version whose lock forbids its deletion while the request
    runs is kept by it, if none of its steps writes into the version's row. -/
theorem locked_version_kept {env : Env} (henv : env.Sane) {w : World} (hw : Sequential env (HasRoom env) w) {r : Request} (hr : r.WellFormed)
    (hon : r.legalHold env ≠ some false) {slot : Bytes}
    (hm : (r.handler env).discard.Meets (exec env) (fun w op => HasRoom env w op ∧ op.writesRow slot = false) w)
    {m : Manifest} (hrow : w.db.objects.get slot = some m) (hs : m.state = .committed) {l : ObjectLock} (hl : m.objectLock = some l)
    (hforbids : ∀ n, w.clock ≤ n → n < (served env w [r]).clock → l.forbidsDelete (env.now n) = true) :
    VersionKept slot m w (served env w [r]) := by
  have hsteady := sequential_steady henv (fun _ _ h => h) hw
  have hworld : ((r.handler env).discard.run (exec env) w).2 = served env w [r] := world_discard _ _
  have hstart : Guarded slot m l w w .start := by
    refine ⟨⟨⟨m, hrow, .refl m⟩, fun p hp => ?_⟩, fun _ _ h => (by cases h), fun _ h => by cases h⟩
    obtain ⟨data, hdata⟩ := hsteady.file (Table.mem_rows.mpr hrow) hp
    exact ⟨data, hdata, hdata⟩
  have hserves : Serves env (r.handler env).discard := Or.inl ⟨r, hr, rfl⟩
  have hfollow := ((serves_follows hserves).prod (serves_grounded hserves)).prod (request_guarded (g := .start) r).discard
  obtain ⟨⟨⟨gh, gr⟩, g⟩, -, -, hguarded⟩ := hfollow.run_meets
    (I := fun (gg : (Ghost × Ground) × Looked) w' => Steady env w' gg.1.1 gg.1.2 ∧ Guarded slot m l w w' gg.2)
    (fun gg w' op hi hok hfit => by
      obtain ⟨⟨hok, hground⟩, hlooked⟩ := hok
      obtain ⟨⟨hroom, hwrite⟩, hlater, hdone⟩ := hfit
      obtain ⟨hsound, hnext⟩ := hi.1.step henv op hok hground hroom
      refine ⟨⟨⟨hsound, hsound⟩, trivial⟩, hnext, hi.2.step hi.1 hs hl hon op hok hlooked hwrite fun e => ?_⟩
      subst e
      exact hforbids w'.clock hlater (hworld ▸ hdone))
    (hm.and (meets_clock _ w)) ⟨hsteady, hstart⟩
  exact hworld ▸ hguarded.kept

/-! ## The requests that write a row -/

/-- The request may write into the row of the key: a PUT or a copy unless versioning is enabled and a
    delete marker where it is suspended, into that of "null"; a completed upload into that of "null";
    and a part into that of its upload id. -/
def Request.overwrites (buckets : Buckets) (key : ManifestKey) : Request → Prop
  | .putObject bucket k .. | .copyObject bucket k .. =>
    key = ⟨bucket, k, nullVersionId⟩ ∧ ∃ cfg, buckets.get bucket = some cfg ∧ cfg.versioning ≠ .enabled
  | .deleteObject bucket k none =>
    key = ⟨bucket, k, nullVersionId⟩ ∧ ∃ cfg, buckets.get bucket = some cfg ∧ cfg.versioning = .suspended
  | .completeMultipartUpload bucket k .. => key = ⟨bucket, k, nullVersionId⟩
  | .uploadPart bucket k uploadId .. | .uploadPartCopy bucket k uploadId .. => key = ⟨bucket, k, uploadId⟩
  | _ => False

/-- Nothing is written into the row. The request's first operation may find a bucket as it was, and
    an id that is drawn is not the row's. -/
def sparing (buckets : Buckets) (key : ManifestKey) : Prog.Protocol Op Op.Res Bool where
  ok := fun _ op => op.writesRow key.encode = false
  res := fun first op => match op with
    | .metaOp (.getBucket bucket) => fun r => first = true → r = buckets.get bucket
    | .newUuid => fun r => r ≠ key.versionId
    | _ => fun _ => True
  next := fun _ _ _ => false

/-- The operation writes into no row. -/
def Op.Spares (o : Op) : Prop := ∀ slot, o.writesRow slot = false

theorem reads_spare : ReadsAmong Op.Spares := by
  intro o ho slot
  cases o with
  | metaOp o => cases o <;> first | rfl | cases ho
  | _ => rfl

section
variable {env : Env} {w : World} {buckets : Buckets} {key : ManifestKey} {g : Bool}

theorem Performs.spares {α : Type} {x : Handler α} (h : Performs Op.Spares x) {Q : α → Bool → Prop} (hq : ∀ a g', Q a g') :
    Keeps (sparing buckets key) x g Q :=
  Prog.Follows.mono (Prog.Follows.of_only (P := sparing buckets key) (fun _ _ ho => ho _) h g) fun _ _ _ _ _ => hq _ _

theorem sparing_gcFreedParts {freed : List Hash} {Q : Unit → Bool → Prop} (hq : ∀ g', Q () g') :
    Keeps (sparing buckets key) (gcFreedParts freed) g Q :=
  AllowsGc.gcFreedParts ⟨fun _ _ => rfl, fun _ _ => rfl, fun _ _ => rfl⟩ hq

theorem encode_spared {k : ManifestKey} (hkey : key.NulFree) (hne : key ≠ k) : decide (k.encode = key.encode) = false :=
  decide_eq_false fun e => hne (eq_of_encode hkey e).symm

/-- A version is written under a fresh id where versioning is enabled and under "null" elsewhere. -/
theorem sparing_nextVersionId {v : VersioningState} {bucket k : Str} (hkey : key.NulFree)
    (hne : v ≠ .enabled → key ≠ ⟨bucket, k, nullVersionId⟩) {Q : Str → Bool → Prop}
    (hq : ∀ vid g', decide ((ManifestKey.mk bucket k vid).encode = key.encode) = false → Q vid g') :
    Keeps (sparing buckets key) (nextVersionId v) g Q := by
  have hnull : v ≠ .enabled → Q nullVersionId g := fun hv => hq _ _ (encode_spared hkey (hne hv))
  cases v with
  | off => exact keeps_ok.mpr (hnull (by decide))
  | suspended => exact keeps_ok.mpr (hnull (by decide))
  | enabled =>
    refine keeps_op.mpr ⟨rfl, fun u hu => hq _ _ (encode_spared hkey fun e => hu ?_)⟩
    rw [e]

theorem sparing_putObject {bucket k : Str} {headers : HeaderMap} {body : Bytes} (hkey : key.NulFree)
    (h : ¬ Request.overwrites buckets key (.putObject bucket k headers body)) :
    Keeps (sparing buckets key) (putObject env bucket k headers body) true fun _ _ => True := by
  simp only [putObject, requireBucket, keeps_bind, keeps_ofExcept, keeps_ensure, keeps_op, keeps_orFail, keeps_mapErr]
  refine ⟨rfl, fun r hr cfg hcfg => (performs_checkPutPreconditions reads_spare.looks _ _ _).spares fun _ g' => ?_⟩
  rw [hr rfl] at hcfg
  intro _ _ _ checksum _ _ _
  refine ⟨rfl, fun written _ => sparing_nextVersionId hkey (fun hv e => h ⟨e, cfg, hcfg, hv⟩) fun vid g'' hvid => ?_⟩
  intro tags _ headerLock _
  refine (performs_lockForPut reads_spare.consults _ _).spares fun lock _ => ⟨rfl, fun now _ => keeps_etagOf fun etag _ => ⟨hvid, ?_⟩⟩
  exact fun _ _ _ _ => sparing_gcFreedParts fun _ => keeps_ok.mpr trivial

theorem sparing_copyObject {bucket k : Str} {source : CopySource} {headers : HeaderMap} (hkey : key.NulFree) (h : ¬ Request.overwrites buckets key (.copyObject bucket k source headers)) :
    Keeps (sparing buckets key) (copyObject env bucket k source headers) true fun _ _ => True := by
  simp only [copyObject, keeps_bind, keeps_orFail, keeps_op, keeps_mapErr]
  refine ⟨rfl, fun r hr cfg hcfg => (performs_resolveSource reads_spare.looks _).spares fun src g' => ?_⟩
  rw [hr rfl] at hcfg
  refine sparing_nextVersionId hkey (fun hv e => h ⟨e, cfg, hcfg, hv⟩) fun vid g'' hvid => ?_
  refine ⟨rfl, fun now _ => keeps_etagOf fun etag _ => ⟨hvid, fun _ _ _ _ => ?_⟩⟩
  exact sparing_gcFreedParts fun _ => keeps_ok.mpr trivial

theorem sparing_deleteObject {bucket k : Str} {versionId : Option Str} (hkey : key.NulFree)
    (h : ¬ Request.overwrites buckets key (.deleteObject bucket k versionId)) :
    Keeps (sparing buckets key) (deleteObject bucket k versionId) true fun _ _ => True := by
  have hremoval : ∀ {target : ManifestKey}, Performs Op.Spares (removeManifest target) :=
    AllowsGc.removeManifest ⟨fun _ _ _ => rfl, fun _ _ _ => rfl, fun _ _ _ => rfl⟩ (fun _ => rfl) fun _ _ => trivial
  have hmarker : ∀ {v : VersioningState}, (v ≠ .enabled → key ≠ ⟨bucket, k, nullVersionId⟩) → ∀ {g' : Bool},
      Keeps (sparing buckets key) (insertDeleteMarker bucket k v) g' fun _ _ => True := by
    intro v hv g'
    simp only [insertDeleteMarker, keeps_bind, keeps_op, keeps_mapErr, keeps_ok]
    exact sparing_nextVersionId hkey hv fun vid _ hvid => ⟨rfl, fun now _ => ⟨hvid, fun _ _ _ _ => sparing_gcFreedParts fun _ => trivial⟩⟩
  simp only [deleteObject, requireBucket, keeps_bind, keeps_op, keeps_orFail]
  refine ⟨rfl, fun r hr cfg hcfg => ?_⟩
  rw [hr rfl] at hcfg
  cases versionId with
  | some vid =>
    exact (performs_bind (performs_op fun _ => rfl) fun _ => performs_bind (performs_checkNotLocked reads_spare.consults _ _ _) fun _ =>
      performs_bind hremoval fun _ => performs_ok _).spares fun _ _ => trivial
  | none =>
    cases hv : cfg.versioning with
    | off =>
      exact (performs_bind (performs_op fun _ => rfl) fun _ => performs_bind (performs_checkNotLocked reads_spare.consults _ _ _) fun _ =>
        performs_bind hremoval fun _ => performs_ok _).spares fun _ _ => trivial
    | suspended =>
      exact hmarker fun _ e => h ⟨e, cfg, hcfg, hv⟩
    | enabled =>
      exact hmarker fun hne => absurd rfl hne

theorem sparing_appendPart {target : ManifestKey} {part : PartRef} {f : MetaError → S3Error} (h : (Op.metaOp (.appendPart target part)).writesRow key.encode = false)
    {x : Handler Response} (hx : Performs Op.Spares x) :
    Keeps (sparing buckets key) (do
      let r ← op (.metaOp (.appendPart target part))
      let effect ← mapErr f r
      gcFreedParts effect.freedParts
      x) g fun _ _ => True := by
  simp only [keeps_bind, keeps_op, keeps_mapErr]
  exact ⟨h, fun _ _ _ _ => sparing_gcFreedParts fun _ => hx.spares fun _ _ => trivial⟩

theorem sparing_request {r : Request} (hkey : key.NulFree) (h : ¬ r.overwrites buckets key) :
    Keeps (sparing buckets key) (r.handler env) true fun _ _ => True := by
  by_cases hreading : r.reading = true
  · exact (reading_performs reads_spare.looks (fun _ => reads_spare _ rfl) hreading).spares fun _ _ => trivial
  by_cases hconfiguring : r.configuring = true
  · refine (configuring_performs reads_spare.consults (fun o ho => ?_) hconfiguring).spares fun _ _ => trivial
    cases o with
    | metaOp o => cases o <;> first | exact fun _ => rfl | cases ho
    | _ => exact fun _ => rfl
  by_cases hediting : r.editing = true
  · refine (editing_performs reads_spare.looks (fun o ho => ?_) hediting).spares fun _ _ => trivial
    cases o with
    | metaOp o => cases o <;> first | exact fun _ => rfl | cases ho
    | _ => exact fun _ => rfl
  cases r with
  | putObject bucket k headers body => exact sparing_putObject hkey h
  | copyObject bucket k source headers => exact sparing_copyObject hkey h
  | deleteObject bucket k versionId => exact sparing_deleteObject hkey h
  | createMultipartUpload bucket k headers =>
    simp only [Request.handler, createMultipartUpload, requireBucket, keeps_bind, keeps_op, keeps_orFail, keeps_mapErr, keeps_ok]
    refine ⟨rfl, fun _ _ _ _ => ⟨rfl, fun u hu => ⟨rfl, fun now _ => ⟨?_, fun _ _ _ _ => sparing_gcFreedParts fun _ => trivial⟩⟩⟩⟩
    refine encode_spared hkey fun e => hu ?_
    rw [e]
    rfl
  | uploadPart bucket k uploadId partNumber headers body =>
    simp only [Request.handler, uploadPart, keeps_bind (x := ensure _ _), keeps_bind (x := ofExcept _), keeps_bind (x := op (.writeBytes _)),
      keeps_ensure, keeps_ofExcept, keeps_op]
    intro _ _ _ _
    exact ⟨rfl, fun written _ => sparing_appendPart (encode_spared hkey h) (performs_ok _)⟩
  | uploadPartCopy bucket k uploadId partNumber source headers =>
    simp only [Request.handler, uploadPartCopy, keeps_bind (x := ensure _ _), keeps_bind (x := resolveSource _), keeps_bind (x := ofExcept _),
      keeps_bind (x := readSourceRange ..), keeps_bind (x := op (.writeBytes _)), keeps_ensure, keeps_ofExcept, keeps_op]
    refine fun _ => (performs_resolveSource reads_spare.looks _).spares fun src _ => fun range _ => ?_
    refine (performs_readRange _ _ _ fun p _ _ => rfl).spares fun payload _ => ⟨rfl, fun written _ => ?_⟩
    exact sparing_appendPart (encode_spared hkey h) (performs_bind (performs_op fun _ => rfl) fun _ => performs_ok _)
  | completeMultipartUpload bucket k uploadId body =>
    simp only [Request.handler, completeMultipartUpload, findUpload, checkSizeSum, keeps_bind, keeps_ofExcept, keeps_ensure, keeps_op,
      keeps_orFail, keeps_mapErr, keeps_ok]
    intro request _ _ _
    refine ⟨rfl, fun found _ up _ selected _ => ?_⟩
    split
    · exact keeps_panicked
    · refine keeps_ok.mpr ⟨rfl, fun now _ => keeps_etagOf fun etag _ => ⟨encode_spared hkey h, fun _ _ _ _ => ?_⟩⟩
      exact sparing_gcFreedParts fun _ => trivial
  | abortMultipartUpload bucket k uploadId =>
    simp only [Request.handler, abortMultipartUpload, findUpload, keeps_bind, keeps_op, keeps_orFail, keeps_mapErr, keeps_ok]
    exact ⟨rfl, fun _ _ _ _ => ⟨rfl, fun _ _ _ _ => sparing_gcFreedParts fun _ => trivial⟩⟩
  | _ => first | exact absurd rfl hreading | exact absurd rfl hconfiguring | exact absurd rfl hediting

/-- A request that does not overwrite a version writes nothing into its row. -/
theorem request_spares (henv : env.Sane) (hw : Sequential env (HasRoom env) w) {r : Request} {slot : Bytes} {m : Manifest}
    (hrow : w.db.objects.get slot = some m) (h : ¬ r.overwrites w.db.buckets m.key) :
    (r.handler env).discard.Meets (exec env) (fun _ op => op.writesRow slot = false) w := by
  have hsteady := sequential_steady henv (fun _ _ h => h) hw
  obtain ⟨hslot, hrowed⟩ := hsteady.tidy.rows _ (Table.mem_rows.mpr hrow)
  have hslot : slot = m.key.encode := hslot
  have hrowed : Row env w.uuids m := hrowed
  subst hslot
  have hany : (r.handler env).discard.Meets (exec env) (fun _ _ => True) w := Prog.meets_of_forall (fun _ _ => trivial) _ _
  refine ((sparing_request hrowed.clear h).discard.meets (I := fun first w' => w.uuids ≤ w'.uuids ∧ (first = true → w' = w))
    (fun first w' op hi hok _ => ⟨hok, ?_, ?_, fun hf => by cases hf⟩) hany ⟨le_rfl, fun _ => rfl⟩).1
  · cases op with
    | metaOp op =>
      cases op with
      | getBucket bucket =>
        intro hfirst
        rw [hi.2 hfirst]
        rfl
      | _ => trivial
    | newUuid =>
      have hnew : env.uuid w'.uuids ≠ m.key.versionId := by
        intro e
        rcases hrowed.version with hnull | ⟨n, hn, hid⟩
        · exact henv.uuid_ne_null _ (e.trans hnull)
        · exact absurd (henv.uuid_injective (e.trans hid)) (ne_of_gt (lt_of_lt_of_le hn hi.1))
      exact hnew
    | _ => trivial
  · cases op with
    | newUuid => exact Nat.le_succ_of_le hi.1
    | _ => exact hi.1

end

/-! ## A held object -/

/-- An object PUT with a legal hold, in a bucket without versioning. -/
def heldObject : World := served sampleEnv .empty
  [.createBucket (str "bucket") [],
    .putObject (str "bucket") (str "k") [(str "x-amz-object-lock-legal-hold", str "ON")] (str "a")]

def heldSlot : Bytes := (ManifestKey.mk (str "bucket") (str "k") nullVersionId).encode

/-- The steps of a request leave the row alone, and no count saturates. -/
def sparesCheck (slot : Bytes) (w : World) (op : Op) : Bool := roomCheck sampleEnv w op && !op.writesRow slot

theorem spares_of_check {slot : Bytes} {w : World} {op : Op} (h : sparesCheck slot w op = true) :
    HasRoom sampleEnv w op ∧ op.writesRow slot = false := by
  unfold sparesCheck at h
  rw [Bool.and_eq_true, Bool.not_eq_true'] at h
  exact ⟨hasRoom_of_check h.1, h.2⟩

theorem sequential_heldObject {Fits : World → Op → Prop} (hfits : ∀ w op, roomCheck sampleEnv w op = true → Fits w op) :
    Sequential sampleEnv Fits heldObject := sequential_served hfits .empty (by rfl)

theorem heldObject_row : ∃ m, heldObject.db.objects.get heldSlot = some m ∧ m.state = .committed ∧ m.kind = .object ∧
    m.objectLock = some ⟨none, true⟩ := ⟨_, rfl, rfl, rfl, rfl⟩

theorem locked_version_kept_by_delete : ∃ m, heldObject.db.objects.get heldSlot = some m ∧
    VersionKept heldSlot m heldObject (served sampleEnv heldObject [.deleteObject (str "bucket") (str "k") (some nullVersionId)]) := by
  obtain ⟨m, hm, hs, -, hl⟩ := heldObject_row
  have hspares : ((Request.deleteObject (str "bucket") (str "k") (some nullVersionId)).handler sampleEnv).discard.Meets
      (exec sampleEnv) (fun w op => HasRoom sampleEnv w op ∧ op.writesRow heldSlot = false) heldObject :=
    Prog.meets_of_check (fun _ _ h => spares_of_check h) (by rfl)
  have hon : (Request.deleteObject (str "bucket") (str "k") (some nullVersionId)).legalHold sampleEnv ≠ some false := by decide
  exact ⟨m, hm, locked_version_kept sampleEnv_sane (sequential_heldObject fun _ _ h => hasRoom_of_check h) (by decide) hon hspares hm hs hl
    fun _ _ _ => rfl⟩

theorem a_put_replaces_a_held_object : ¬ ∀ w, Sequential sampleEnv (fun _ _ => True) w → ∀ r : Request, r.WellFormed →
    r.legalHold sampleEnv ≠ some false → ∀ slot m l, w.db.objects.get slot = some m → m.state = .committed → m.kind = .object →
      m.objectLock = some l → (∀ n, w.clock ≤ n → n < (served sampleEnv w [r]).clock → l.forbidsDelete (sampleEnv.now n) = true) →
        VersionKept slot m w (served sampleEnv w [r]) := by
  intro h
  obtain ⟨m, hm, hs, hk, hl⟩ := heldObject_row
  have hon : (Request.putObject (str "bucket") (str "k") [] (str "b")).legalHold sampleEnv ≠ some false := by decide
  obtain ⟨m', hm', hkept⟩ := (h heldObject (sequential_heldObject fun _ _ _ => trivial) (.putObject (str "bucket") (str "k") [] (str "b"))
    (by decide) hon heldSlot m _ hm hs hk hl fun _ _ _ => rfl).row
  obtain ⟨l', hl', -⟩ := hkept.lock _ hl
  -- the object PUT last has no lock
  have hafter : ∃ m', (served sampleEnv heldObject [.putObject (str "bucket") (str "k") [] (str "b")]).db.objects.get heldSlot = some m' ∧
      m'.objectLock = none := ⟨_, rfl, rfl⟩
  obtain ⟨m'', hm'', hnone⟩ := hafter
  rw [hm'] at hm''
  cases hm''
  rw [hl'] at hnone
  cases hnone

end S3lite
