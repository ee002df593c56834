/-
  S3lite.Storage.Steps — what one operation of the metadata store can do, stated once.

  - `exec_objects`: the rows of `OBJECTS` after an operation (`ObjectsStep`).
  - `exec_buckets`: the rows of `BUCKETS` after one (`BucketsStep`).
  - `exec_parts`: the rows of `PARTS` after one (`PartsStep`): counting keeps every row and
    its state, and creates live rows only; a mark needs a count of 0; a removal takes one row.
  - `put_error_iff`, `append_error_iff`, `complete_error_iff`: what the transactions are
    refused for, besides a missing row: a part marked for collection.
  - `exec_keepsRows`: the operations that leave objects and buckets alone.
-/
import S3lite.Storage.Refcount

namespace S3lite

/-! ## Rows of `OBJECTS` -/

/-- The parts of an upload after a part is stored: it replaces the one of its number. -/
def replacePart (parts : List PartRef) (part : PartRef) : List PartRef :=
  sortParts (parts.eraseP (fun p => p.partNumber = part.partNumber) ++ [part])

theorem dropReplaced_parts (parts : Parts) (ps : List PartRef) (part : PartRef) :
    (dropReplaced parts ps part).2.2 = ps.eraseP fun p => p.partNumber = part.partNumber := by
  simp only [dropReplaced]
  split
  · rfl
  · rename_i h
    exact (List.eraseP_of_forall_not fun p hp => List.find?_eq_none.mp h p hp).symm

theorem mem_replacePart {parts : List PartRef} {part p : PartRef} :
    p ∈ replacePart parts part ↔ p ∈ parts.eraseP (fun q => q.partNumber = part.partNumber) ∨ p = part := by
  simp [replacePart, sortParts]

inductive ObjectsStep : MetaOp → Objects → Objects → Prop
  | same (op : MetaOp) (o : Objects) : ObjectsStep op o o
  | put (m : Manifest) (o : Objects) : ObjectsStep (.putManifest m) o (o.insert m.key.encode m)
  | delete (k : ManifestKey) (m : Manifest) (o : Objects) : o.get k.encode = some m →
      ObjectsStep (.deleteManifest k) o (o.erase k.encode)
  | state (k : ManifestKey) (s : ManifestState) (m : Manifest) (now : Time) (o : Objects) : o.get k.encode = some m →
      ObjectsStep (.updateManifestState k s) o (o.insert k.encode { m with state := s, lastModified := now })
  | tags (k : ManifestKey) (tags : Table Str Str) (m : Manifest) (o : Objects) : o.get k.encode = some m →
      ObjectsStep (.updateManifestTags k tags) o (o.insert k.encode { m with tags := tags })
  | lock (k : ManifestKey) (lock : Option ObjectLock) (m : Manifest) (o : Objects) : o.get k.encode = some m →
      ObjectsStep (.updateManifestLock k lock) o (o.insert k.encode { m with objectLock := lock })
  | append (k : ManifestKey) (part : PartRef) (m : Manifest) (now : Time) (o : Objects) : o.get k.encode = some m →
      ObjectsStep (.appendPart k part) o (o.insert k.encode (m.withParts (replacePart m.parts part) now))
  | complete (k : ManifestKey) (m up : Manifest) (o : Objects) : o.get k.encode = some up → up.state = .inProgress →
      ObjectsStep (.completeMultipartUpload k m) o ((o.insert m.key.encode m).erase k.encode)

theorem exec_objects (op : MetaOp) (now now' : Time) (db : Db) :
    ObjectsStep op db.objects (op.exec now now' db).2.objects := by
  have hbucket : ∀ (op : MetaOp) {name : Str} {f : BucketConfig → BucketConfig},
      ObjectsStep op db.objects (commit_ db (updateBucket db name f)).2.objects := by
    intro op name f
    refine commit_keeps_ (P := fun d => ObjectsStep op db.objects d.objects) (.same ..) fun db' e => ?_
    simp only [updateBucket] at e
    split at e <;> cases e
    exact .same ..
  have hupdate : ∀ {op : MetaOp} {k : ManifestKey} {f : Manifest → Manifest},
      (∀ m, db.objects.get k.encode = some m → ObjectsStep op db.objects (db.objects.insert k.encode (f m))) →
      ObjectsStep op db.objects (commit_ db (updateManifest db k f)).2.objects := by
    intro op k f hf
    refine commit_keeps_ (P := fun d => ObjectsStep op db.objects d.objects) (.same ..) fun db' e => ?_
    obtain ⟨m, hm, rfl⟩ := update_ok e
    exact hf m hm
  cases op with
  | createBucket name config =>
    refine commit_keeps_ (P := fun d => ObjectsStep _ db.objects d.objects) (.same ..) fun db' e => ?_
    simp only [handleCreateBucket] at e
    split at e <;> cases e
    exact .same ..
  | deleteBucket name =>
    refine commit_keeps_ (P := fun d => ObjectsStep _ db.objects d.objects) (.same ..) fun db' e => ?_
    simp only [handleDeleteBucket] at e
    split at e
    · cases e
    · split at e <;> cases e
      exact .same ..
  | putManifest m =>
    refine commit_keeps (P := fun d => ObjectsStep _ db.objects d.objects) (.same ..) fun _ db' e => ?_
    obtain ⟨parts, -, -, rfl⟩ := put_ok e
    exact .put ..
  | deleteManifest key =>
    refine commit_keeps (P := fun d => ObjectsStep _ db.objects d.objects) (.same ..) fun _ db' e => ?_
    obtain ⟨m, hm, -, rfl⟩ := delete_ok e
    exact .delete _ m _ hm
  | appendPart key part =>
    refine commit_keeps (P := fun d => ObjectsStep _ db.objects d.objects) (.same ..) fun _ db' e => ?_
    obtain ⟨m, parts, hm, -, -, rfl⟩ := append_ok e
    rw [dropReplaced_parts]
    exact .append _ _ m _ _ hm
  | completeMultipartUpload key m =>
    refine commit_keeps (P := fun d => ObjectsStep _ db.objects d.objects) (.same ..) fun _ db' e => ?_
    obtain ⟨up, parts, hup, hs, -, -, rfl⟩ := complete_ok e
    exact .complete _ _ up _ hup hs
  | markPartGcPending hash =>
    refine commit_keeps (P := fun d => ObjectsStep _ db.objects d.objects) (.same ..) fun _ db' e => ?_
    obtain ⟨_, _, ⟨-, -, rfl⟩ | ⟨-, -, rfl⟩⟩ := mark_ok e <;> exact .same ..
  | updateManifestState key s => exact hupdate fun m hm => .state _ _ m _ _ hm
  | updateManifestTags key tags => exact hupdate fun m hm => .tags _ _ m _ hm
  | updateManifestLock key lock => exact hupdate fun m hm => .lock _ _ m _ hm
  | updateBucketVersioning _ _ => exact hbucket _
  | updateBucketCors _ _ => exact hbucket _
  | updateBucketObjectLock _ _ => exact hbucket _
  | updateBucketLifecycle _ _ => exact hbucket _
  | _ => exact .same ..

/-! ## Rows of `BUCKETS` -/

inductive BucketsStep : MetaOp → Db → Buckets → Prop
  | same (op : MetaOp) (db : Db) : BucketsStep op db db.buckets
  | create (name : Str) (cfg : BucketConfig) (db : Db) : db.buckets.get name = none →
      BucketsStep (.createBucket name cfg) db (db.buckets.insert name cfg)
  | delete (name : Str) (db : Db) : (bucketRange db name).isEmpty = true →
      BucketsStep (.deleteBucket name) db (db.buckets.erase name)
  | update (op : MetaOp) (name : Str) (cfg cfg' : BucketConfig) (db : Db) : db.buckets.get name = some cfg →
      BucketsStep op db (db.buckets.insert name cfg')

theorem exec_buckets (op : MetaOp) (now now' : Time) (db : Db) : BucketsStep op db (op.exec now now' db).2.buckets := by
  have hbucket : ∀ (op : MetaOp) {name : Str} {f : BucketConfig → BucketConfig},
      BucketsStep op db (commit_ db (updateBucket db name f)).2.buckets := by
    intro op name f
    refine commit_keeps_ (P := fun d => BucketsStep op db d.buckets) (.same ..) fun db' e => ?_
    unfold updateBucket at e
    split at e
    · cases e
    · rename_i cfg hcfg
      cases e
      exact .update _ name cfg _ db hcfg
  have hupdate : ∀ (op : MetaOp) {k : ManifestKey} {f : Manifest → Manifest},
      BucketsStep op db (commit_ db (updateManifest db k f)).2.buckets := by
    intro op k f
    refine commit_keeps_ (P := fun d => BucketsStep op db d.buckets) (.same ..) fun db' e => ?_
    obtain ⟨m, hm, rfl⟩ := update_ok e
    exact .same ..
  cases op with
  | createBucket name config =>
    refine commit_keeps_ (P := fun d => BucketsStep _ db d.buckets) (.same ..) fun db' e => ?_
    unfold handleCreateBucket at e
    split at e
    · cases e
    · rename_i h
      cases e
      exact .create name config db (by simpa using h)
  | deleteBucket name =>
    refine commit_keeps_ (P := fun d => BucketsStep _ db d.buckets) (.same ..) fun db' e => ?_
    unfold handleDeleteBucket at e
    split at e
    · cases e
    · split at e
      · rename_i h
        cases e
        exact .delete name db h
      · cases e
  | putManifest m =>
    refine commit_keeps (P := fun d => BucketsStep _ db d.buckets) (.same ..) fun _ db' e => ?_
    obtain ⟨parts, -, -, rfl⟩ := put_ok e
    exact .same ..
  | deleteManifest key =>
    refine commit_keeps (P := fun d => BucketsStep _ db d.buckets) (.same ..) fun _ db' e => ?_
    obtain ⟨m, -, -, rfl⟩ := delete_ok e
    exact .same ..
  | appendPart key part =>
    refine commit_keeps (P := fun d => BucketsStep _ db d.buckets) (.same ..) fun _ db' e => ?_
    obtain ⟨m, parts, -, -, -, rfl⟩ := append_ok e
    exact .same ..
  | completeMultipartUpload key m =>
    refine commit_keeps (P := fun d => BucketsStep _ db d.buckets) (.same ..) fun _ db' e => ?_
    obtain ⟨up, parts, -, -, -, -, rfl⟩ := complete_ok e
    exact .same ..
  | markPartGcPending hash =>
    refine commit_keeps (P := fun d => BucketsStep _ db d.buckets) (.same ..) fun _ db' e => ?_
    obtain ⟨_, _, ⟨-, -, rfl⟩ | ⟨-, -, rfl⟩⟩ := mark_ok e <;> exact .same ..
  | updateManifestState key s => exact hupdate _
  | updateManifestTags key tags => exact hupdate _
  | updateManifestLock key lock => exact hupdate _
  | updateBucketVersioning _ _ => exact hbucket _
  | updateBucketCors _ _ => exact hbucket _
  | updateBucketObjectLock _ _ => exact hbucket _
  | updateBucketLifecycle _ _ => exact hbucket _
  | _ => exact .same ..

/-! ## Rows of `PARTS` -/

/-- Every row stays, in its state, a marked row keeps a count of 0, and a new row is live and
    of one of the hashes. -/
structure Recounted (hs : List Hash) (parts parts' : Parts) : Prop where
  kept : ∀ h e, parts.get h = some e → ∃ e', parts'.get h = some e' ∧ e'.state = e.state ∧
    (e.state = .gcPending → e.refcount = 0 → e'.refcount = 0)
  created : ∀ h e, parts.get h = none → parts'.get h = some e → e.state = .live ∧ h ∈ hs

theorem Recounted.refl (parts : Parts) : Recounted [] parts parts :=
  ⟨fun _ e he => ⟨e, he, rfl, fun _ h => h⟩, fun _ _ h h' => by rw [h] at h'; cases h'⟩

theorem Recounted.trans {hs hs' : List Hash} {a b c : Parts} (h : Recounted hs a b) (h' : Recounted hs' b c) :
    Recounted (hs ++ hs') a c := by
  constructor
  · intro x e he
    obtain ⟨e1, he1, hs1, hp1⟩ := h.kept x e he
    obtain ⟨e2, he2, hs2, hp2⟩ := h'.kept x e1 he1
    exact ⟨e2, he2, hs2.trans hs1, fun hs h0 => hp2 (hs1.trans hs) (hp1 hs h0)⟩
  · intro x e hn he
    cases hb : b.get x with
    | none =>
      obtain ⟨hl, hm⟩ := h'.created x e hb he
      exact ⟨hl, List.mem_append_right _ hm⟩
    | some e1 =>
      obtain ⟨hl, hm⟩ := h.created x e1 hn hb
      obtain ⟨e2, he2, hs2, -⟩ := h'.kept x e1 hb
      rw [he] at he2
      cases he2
      exact ⟨hs2.trans hl, List.mem_append_left _ hm⟩

theorem inc_recounted {h : Hash} {parts parts' : Parts} {size : Nat} {now : Time}
    (hi : incPartRefcount parts h size now = .ok parts') : Recounted [h] parts parts' := by
  obtain ⟨e, rfl, hl, -, hr⟩ := inc_ok hi
  constructor
  · intro x r hx
    by_cases hxh : x = h
    · subst hxh
      refine ⟨e, Table.get_insert_self .., by rw [hl, hr r hx], fun hs => ?_⟩
      rw [hr r hx] at hs
      cases hs
    · exact ⟨r, by rw [Table.get_insert_ne _ _ hxh, hx], rfl, fun _ h => h⟩
  · intro x r hn hx
    by_cases hxh : x = h
    · subst hxh
      rw [Table.get_insert_self] at hx
      cases hx
      exact ⟨hl, List.mem_singleton_self _⟩
    · rw [Table.get_insert_ne _ _ hxh, hn] at hx
      cases hx

theorem dec_recounted (parts : Parts) (h : Hash) : Recounted [] parts (decPartRefcount parts h).1 := by
  simp only [decPartRefcount]
  cases hr : parts.get h with
  | none => exact .refl parts
  | some r =>
    simp only
    constructor
    · intro x e hx
      by_cases hxh : x = h
      · subst hxh
        rw [hr] at hx
        cases hx
        exact ⟨_, Table.get_insert_self .., rfl, fun _ h0 => by simp [h0]⟩
      · exact ⟨e, by rw [Table.get_insert_ne _ _ hxh, hx], rfl, fun _ h => h⟩
    · intro x e hn hx
      by_cases hxh : x = h
      · subst hxh; rw [hr] at hn; cases hn
      · rw [Table.get_insert_ne _ _ hxh, hn] at hx; cases hx

theorem incAll_recounted {now : Time} {ps : List PartRef} {parts parts' : Parts}
    (hi : incAll now parts ps = .ok parts') : Recounted (ps.map (·.hash)) parts parts' := by
  induction ps generalizing parts with
  | nil => cases hi; exact .refl _
  | cons p ps ih =>
    simp only [incAll] at hi
    cases hp : incPartRefcount parts p.hash p.size now with
    | error e => rw [hp] at hi; cases hi
    | ok mid => rw [hp] at hi; exact (inc_recounted hp).trans (ih hi)

theorem decAll_recounted (ps : List PartRef) (parts : Parts) : Recounted [] parts (decAll parts ps).1 := by
  induction ps generalizing parts with
  | nil => exact .refl _
  | cons p ps ih => exact (dec_recounted parts p.hash).trans (ih _)

theorem dropReplaced_recounted (parts : Parts) (ps : List PartRef) (part : PartRef) :
    Recounted [] parts (dropReplaced parts ps part).1 := by
  simp only [dropReplaced]
  split
  · exact dec_recounted ..
  · exact .refl parts

/-- The row of the hash is marked for collection. -/
def Marked (parts : Parts) (h : Hash) : Prop := ∃ e, parts.get h = some e ∧ e.state = .gcPending

theorem Recounted.marked_iff {hs : List Hash} {parts parts' : Parts} (hr : Recounted hs parts parts') {h : Hash} :
    Marked parts' h ↔ Marked parts h := by
  constructor
  · intro hm
    obtain ⟨e', he', hs'⟩ := hm
    cases hold : parts.get h with
    | none =>
      rw [(hr.created h e' hold he').1] at hs'
      cases hs'
    | some e =>
      obtain ⟨e'', he'', hs, -⟩ := hr.kept h e hold
      rw [he'] at he''
      cases he''
      exact ⟨e, hold, hs.symm.trans hs'⟩
  · intro hm
    obtain ⟨e, he, hs⟩ := hm
    obtain ⟨e', he', hs', -⟩ := hr.kept h e he
    exact ⟨e', he', hs'.trans hs⟩

theorem inc_error_iff {parts : Parts} {hash : Hash} (size : Nat) (now : Time) :
    (∃ e, incPartRefcount parts hash size now = .error e) ↔ Marked parts hash := by
  unfold incPartRefcount Marked
  cases hget : parts.get hash with
  | none => simp
  | some e => by_cases hs : e.state = .gcPending <;> simp [hs]

/-- Counting is refused for a marked part, and only for one. -/
theorem incAll_error_iff {ps : List PartRef} {parts : Parts} (now : Time) :
    (∃ e, incAll now parts ps = .error e) ↔ ∃ p ∈ ps, Marked parts p.hash := by
  induction ps generalizing parts with
  | nil => simp [incAll]
  | cons p ps ih =>
    have hp : (∃ e, incPartRefcount parts p.hash p.size now = .error e) ↔ Marked parts p.hash := inc_error_iff p.size now
    simp only [incAll, List.exists_mem_cons_iff]
    cases hi : incPartRefcount parts p.hash p.size now with
    | error e =>
      rw [hi] at hp
      simp only [Except.bind, Except.error.injEq, exists_eq', true_iff]
      exact Or.inl (hp.mp ⟨e, rfl⟩)
    | ok mid =>
      rw [hi] at hp
      have hunmarked : ¬ Marked parts p.hash := fun hm => by
        obtain ⟨e, he⟩ := hp.mpr hm
        cases he
      simp only [Except.bind, hunmarked, false_or]
      rw [ih]
      exact exists_congr fun q => and_congr_right fun _ => (inc_recounted hi).marked_iff

theorem put_error_iff {db : Db} {now : Time} {m : Manifest} :
    (∃ e, handlePutManifest db now m = .error e) ↔ ∃ p ∈ m.parts, Marked db.parts p.hash := by
  rw [← incAll_error_iff now]
  unfold handlePutManifest
  cases incAll now db.parts m.parts with
  | error e => simp [Except.bind]
  | ok parts => simp [Except.bind]

theorem append_error_iff {db : Db} {now now' : Time} {key : ManifestKey} {part : PartRef} :
    (∃ e, handleAppendPart db now now' key part = .error e) ↔ db.objects.get key.encode = none ∨ Marked db.parts part.hash := by
  unfold handleAppendPart
  cases hrow : db.objects.get key.encode with
  | none => simp
  | some m =>
    simp only [reduceCtorEq, false_or]
    rw [← (dropReplaced_recounted db.parts m.parts part).marked_iff, ← inc_error_iff part.size now]
    cases incPartRefcount (dropReplaced db.parts m.parts part).1 part.hash part.size now with
    | error e => simp [Except.bind]
    | ok parts => simp [Except.bind]

theorem complete_error_iff {db : Db} {now : Time} {key : ManifestKey} {m : Manifest} :
    (∃ e, handleCompleteMultipart db now key m = .error e) ↔
      (∀ up, db.objects.get key.encode = some up → up.state ≠ .inProgress) ∨ ∃ p ∈ m.parts, Marked db.parts p.hash := by
  unfold handleCompleteMultipart
  cases hrow : db.objects.get key.encode with
  | none => simp
  | some up =>
    by_cases hs : up.state = .inProgress
    · -- what is dropped before it is counted again stays as marked as it was
      have hdropped := (decAll_recounted up.parts db.parts).trans
        (decAll_recounted (oldParts (db.objects.get m.key.encode)) (decAll db.parts up.parts).1)
      have hmarked : (∃ p ∈ m.parts, Marked db.parts p.hash) ↔ ∃ e, incAll now
          (decAll (decAll db.parts up.parts).1 (oldParts (db.objects.get m.key.encode))).1 m.parts = .error e := by
        rw [incAll_error_iff]
        exact exists_congr fun p => and_congr_right fun _ => hdropped.marked_iff.symm
      simp only [hs, ne_eq, not_true_eq_false, if_false, Option.some.injEq, forall_eq', false_or]
      rw [hmarked]
      cases incAll now (decAll (decAll db.parts up.parts).1 (oldParts (db.objects.get m.key.encode))).1 m.parts with
      | error e => simp [Except.bind]
      | ok parts => simp [Except.bind]
    · simp [hs]

/-- The parts an operation counts a reference to. -/
def MetaOp.counts : MetaOp → List PartRef
  | putManifest m => m.parts
  | appendPart _ part => [part]
  | completeMultipartUpload _ m => m.parts
  | _ => []

/-- A part of a row was a part of a row before, or is counted. -/
theorem ObjectsStep.part_origin {op : MetaOp} {o o' : Objects} (h : ObjectsStep op o o') {r : Bytes × Manifest} (hr : r ∈ o'.rows)
    {p : PartRef} (hp : p ∈ r.2.parts) : (∃ r0 ∈ o.rows, p ∈ r0.2.parts) ∨ p ∈ op.counts := by
  have hupdate : ∀ {k : Bytes} {m m' : Manifest}, o.get k = some m → r ∈ (o.insert k m').rows → m'.parts = m.parts →
      ∃ r0 ∈ o.rows, p ∈ r0.2.parts := by
    intro k m m' hm hr hparts
    rcases Table.mem_insert.mp hr with rfl | ⟨hr, -⟩
    · exact ⟨_, Table.mem_rows.mpr hm, hparts ▸ hp⟩
    · exact ⟨r, hr, hp⟩
  cases h with
  | same => exact Or.inl ⟨r, hr, hp⟩
  | put m =>
    rcases Table.mem_insert.mp hr with rfl | ⟨hr, -⟩
    · exact Or.inr hp
    · exact Or.inl ⟨r, hr, hp⟩
  | delete => exact Or.inl ⟨r, (Table.mem_erase.mp hr).1, hp⟩
  | state k s m now _ hm => exact Or.inl (hupdate hm hr rfl)
  | tags k tags m _ hm => exact Or.inl (hupdate hm hr rfl)
  | lock k lock m _ hm => exact Or.inl (hupdate hm hr rfl)
  | append k part m now _ hm =>
    rcases Table.mem_insert.mp hr with rfl | ⟨hr, -⟩
    · rcases mem_replacePart.mp hp with hp | hp
      · exact Or.inl ⟨_, Table.mem_rows.mpr hm, List.mem_of_mem_eraseP hp⟩
      · exact Or.inr (List.mem_singleton.mpr hp)
    · exact Or.inl ⟨r, hr, hp⟩
  | complete k m up =>
    rcases Table.mem_insert.mp (Table.mem_erase.mp hr).1 with rfl | ⟨hr, -⟩
    · exact Or.inr hp
    · exact Or.inl ⟨r, hr, hp⟩

inductive PartsStep : MetaOp → Parts → Parts → Prop
  | recount (op : MetaOp) (p p' : Parts) : Recounted (op.counts.map (·.hash)) p p' → PartsStep op p p'
  | mark (h : Hash) (e : PartEntry) (p : Parts) : p.get h = some e → e.refcount = 0 →
      PartsStep (.markPartGcPending h) p (p.insert h { e with state := .gcPending })
  | remove (h : Hash) (p : Parts) : PartsStep (.removePart h) p (p.erase h)

theorem exec_parts (op : MetaOp) (now now' : Time) (db : Db) :
    PartsStep op db.parts (op.exec now now' db).2.parts := by
  have hrefl : ∀ op : MetaOp, PartsStep op db.parts db.parts := fun op =>
    .recount _ _ _ ⟨(Recounted.refl db.parts).kept, fun _ _ h h' => by rw [h] at h'; cases h'⟩
  have hbucket : ∀ (op : MetaOp) {name : Str} {f : BucketConfig → BucketConfig},
      PartsStep op db.parts (commit_ db (updateBucket db name f)).2.parts := by
    intro op name f
    refine commit_keeps_ (P := fun d => PartsStep op db.parts d.parts) (hrefl _) fun db' e => ?_
    simp only [updateBucket] at e
    split at e <;> cases e
    exact hrefl _
  have hupdate : ∀ (op : MetaOp) {k : ManifestKey} {f : Manifest → Manifest},
      PartsStep op db.parts (commit_ db (updateManifest db k f)).2.parts := by
    intro op k f
    refine commit_keeps_ (P := fun d => PartsStep op db.parts d.parts) (hrefl _) fun db' e => ?_
    obtain ⟨m, hm, rfl⟩ := update_ok e
    exact hrefl _
  cases op with
  | createBucket name config =>
    refine commit_keeps_ (P := fun d => PartsStep _ db.parts d.parts) (hrefl _) fun db' e => ?_
    simp only [handleCreateBucket] at e
    split at e <;> cases e
    exact hrefl _
  | deleteBucket name =>
    refine commit_keeps_ (P := fun d => PartsStep _ db.parts d.parts) (hrefl _) fun db' e => ?_
    simp only [handleDeleteBucket] at e
    split at e
    · cases e
    · split at e <;> cases e
      exact hrefl _
  | putManifest m =>
    refine commit_keeps (P := fun d => PartsStep _ db.parts d.parts) (hrefl _) fun _ db' e => ?_
    obtain ⟨parts, hi, -, rfl⟩ := put_ok e
    have h := (incAll_recounted hi).trans (decAll_recounted (oldParts (db.objects.get m.key.encode)) parts)
    rw [List.append_nil] at h
    exact .recount _ _ _ h
  | deleteManifest key =>
    refine commit_keeps (P := fun d => PartsStep _ db.parts d.parts) (hrefl _) fun _ db' e => ?_
    obtain ⟨m, hm, -, rfl⟩ := delete_ok e
    exact .recount _ _ _ (decAll_recounted m.parts db.parts)
  | appendPart key part =>
    refine commit_keeps (P := fun d => PartsStep _ db.parts d.parts) (hrefl _) fun _ db' e => ?_
    obtain ⟨m, parts, hm, hi, -, rfl⟩ := append_ok e
    exact .recount _ _ _ ((dropReplaced_recounted db.parts m.parts part).trans (inc_recounted hi))
  | completeMultipartUpload key m =>
    refine commit_keeps (P := fun d => PartsStep _ db.parts d.parts) (hrefl _) fun _ db' e => ?_
    obtain ⟨up, parts, hup, -, hi, -, rfl⟩ := complete_ok e
    exact .recount _ _ _ (((decAll_recounted up.parts db.parts).trans (decAll_recounted _ _)).trans (incAll_recounted hi))
  | markPartGcPending hash =>
    refine commit_keeps (P := fun d => PartsStep _ db.parts d.parts) (hrefl _) fun _ db' e => ?_
    obtain ⟨r, hr, ⟨-, -, rfl⟩ | ⟨-, h0, rfl⟩⟩ := mark_ok e
    · exact hrefl _
    · exact .mark _ r _ hr h0
  | removePart hash => exact .remove ..
  | updateManifestState key s => exact hupdate _
  | updateManifestTags key tags => exact hupdate _
  | updateManifestLock key lock => exact hupdate _
  | updateBucketVersioning _ _ => exact hbucket _
  | updateBucketCors _ _ => exact hbucket _
  | updateBucketObjectLock _ _ => exact hbucket _
  | updateBucketLifecycle _ _ => exact hbucket _
  | _ => exact hrefl _

/-- Every operation but a mark and a removal only counts. -/
theorem exec_recounted {op : MetaOp} (hm : ∀ h, op ≠ .markPartGcPending h) (hr : ∀ h, op ≠ .removePart h)
    (now now' : Time) (db : Db) : Recounted (op.counts.map (·.hash)) db.parts (op.exec now now' db).2.parts := by
  have h := exec_parts op now now' db
  generalize (op.exec now now' db).2.parts = parts' at h ⊢
  cases h with
  | recount _ _ _ h => exact h
  | mark h => exact absurd rfl (hm h)
  | remove h => exact absurd rfl (hr h)

/-! ## What keeps the rows -/

/-- The operation leaves the rows of objects and buckets as they are. -/
def MetaOp.keepsRows : MetaOp → Bool
  | .getBucket _ | .listBuckets | .getManifest _ | .getPart _ | .markPartGcPending _ | .removePart _ | .listGcPendingParts
  | .listObjects _ | .getLatestVersion .. | .listObjectVersions _ | .listAllManifestsInBucket _ | .listOrphanParts
  | .insertDlqEntry _ | .listDlq => true
  | _ => false

theorem exec_keepsRows {op : MetaOp} (h : op.keepsRows = true) (now now' : Time) (db : Db) :
    (op.exec now now' db).2.objects = db.objects ∧ (op.exec now now' db).2.buckets = db.buckets := by
  cases op with
  | markPartGcPending hash =>
    refine commit_keeps (P := fun d => d.objects = db.objects ∧ d.buckets = db.buckets) ⟨rfl, rfl⟩ fun _ db' e => ?_
    obtain ⟨_, _, ⟨-, -, rfl⟩ | ⟨-, -, rfl⟩⟩ := mark_ok e <;> exact ⟨rfl, rfl⟩
  | _ => first | exact ⟨rfl, rfl⟩ | cases h

end S3lite
