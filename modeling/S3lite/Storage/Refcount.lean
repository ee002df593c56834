/-
  S3lite.Storage.Refcount — the part reference counts.

  `refs` counts the references to a hash over all manifests, with multiplicity;
  `Counted h parts n` says that the row of `h` stands for `n` references: its count is `n`
  (no row counts 0), and a row marked for collection counts 0.

  - `incAll_counted` / `decAll_counted`: the two loops over a manifest's parts move the
    count by the manifest's references to the hash.
  - `put_counted` … `mark_counted`: every transaction keeps `Counted h db.parts (refs db h)`.
    A put counts its new references before it drops the replaced ones, so it needs room
    for both (`Fits`): the count saturates at 2^32 - 1.
  - `refcounts_exact`: over every run (`MetaReach`) whose operations have room for `h`, the
    stored count is exact, a referenced hash has a row, and a marked row has no references.
  Traces: completing an upload into its own row, under two keys of one encoding, loses the
  object and leaves its parts counted; replacing a manifest with as many references as a
  count can hold loses one of them (`counts_drift`).
-/
import S3lite.Storage.Ops

namespace S3lite

/-- The references of a manifest to a hash. -/
def Manifest.refs (m : Manifest) (h : Hash) : Nat := m.parts.countP fun p => p.hash = h

/-- The references to a hash over all manifests, with multiplicity. -/
def refs (db : Db) (h : Hash) : Nat := db.objects.sumBy fun m => m.refs h

/-- The stored count; 0 if there is no row. -/
def refcount (parts : Parts) (h : Hash) : Nat := ((parts.get h).map (·.refcount)).getD 0

/-- The row of `h` stands for `n` references. -/
structure Counted (h : Hash) (parts : Parts) (n : Nat) : Prop where
  count : refcount parts h = n
  pending : ∀ e, parts.get h = some e → e.state = .gcPending → e.refcount = 0

namespace Counted

variable {h : Hash} {parts : Parts} {n : Nat}

/-- A referenced hash has a live row that holds the count. -/
theorem row (hc : Counted h parts n) (hn : 0 < n) : ∃ e, parts.get h = some e ∧ e.refcount = n ∧ e.state = .live := by
  have hcount := hc.count
  simp only [refcount] at hcount
  cases he : parts.get h with
  | none => rw [he] at hcount; simp at hcount; omega
  | some e =>
    rw [he] at hcount
    simp only [Option.map_some, Option.getD_some] at hcount
    refine ⟨e, rfl, hcount, ?_⟩
    cases hs : e.state with
    | live => rfl
    | gcPending => have := hc.pending e he hs; omega

theorem pending_unreferenced (hc : Counted h parts n) {e : PartEntry} (he : parts.get h = some e)
    (hs : e.state = .gcPending) : e.refcount = 0 ∧ n = 0 := by
  have h0 := hc.pending e he hs
  have := hc.count
  simp only [refcount, he, Option.map_some, Option.getD_some] at this
  exact ⟨h0, by omega⟩

theorem of_live {e : PartEntry} (he : parts.get h = some e) (hs : e.state = .live) : Counted h parts e.refcount :=
  ⟨by simp [refcount, he], fun e' he' hs' => by rw [he] at he'; cases he'; rw [hs] at hs'; cases hs'⟩

/-- A write to another row changes nothing. -/
theorem congr {parts' : Parts} (hc : Counted h parts n) (hget : parts'.get h = parts.get h) : Counted h parts' n :=
  ⟨by simpa [refcount, hget] using hc.count, fun e he => hc.pending e (hget ▸ he)⟩

end Counted

/-! ## The two loops -/

theorem inc_ok {h : Hash} {parts parts' : Parts} {size : Nat} {now : Time}
    (hi : incPartRefcount parts h size now = .ok parts') :
    ∃ e, parts' = parts.insert h e ∧ e.state = .live ∧ e.refcount = min (refcount parts h + 1) u32Max ∧
      ∀ r, parts.get h = some r → r.state = .live := by
  simp only [incPartRefcount] at hi
  cases he : parts.get h with
  | none =>
    rw [he] at hi
    cases hi
    exact ⟨_, rfl, rfl, by simp [refcount, he, u32Max], nofun⟩
  | some r =>
    rw [he] at hi
    simp only at hi
    split at hi
    · cases hi
    · rename_i hs
      cases hi
      have hlive : r.state = .live := by
        cases h' : r.state with
        | live => rfl
        | gcPending => exact absurd h' hs
      exact ⟨_, rfl, hlive, by simp [refcount, he], fun r' h' => by cases h'; exact hlive⟩

theorem inc_counted {h h' : Hash} {parts parts' : Parts} {n size : Nat} {now : Time}
    (hi : incPartRefcount parts h' size now = .ok parts') (hc : Counted h parts n)
    (hfit : n + (if h' = h then 1 else 0) ≤ u32Max) : Counted h parts' (n + if h' = h then 1 else 0) := by
  obtain ⟨e, rfl, hs, hn, -⟩ := inc_ok hi
  by_cases heq : h' = h
  · subst heq
    rw [if_pos rfl] at hfit ⊢
    rw [hc.count, min_eq_left hfit] at hn
    rw [← hn]
    exact .of_live (Table.get_insert_self ..) hs
  · rw [if_neg heq]
    exact hc.congr (Table.get_insert_ne _ _ (Ne.symm heq))

theorem dec_counted {h h' : Hash} {parts : Parts} {n : Nat} (hc : Counted h parts (n + if h' = h then 1 else 0)) :
    Counted h (decPartRefcount parts h').1 n := by
  simp only [decPartRefcount]
  by_cases heq : h' = h
  · subst heq
    rw [if_pos rfl] at hc
    obtain ⟨r, hr, hn, hs⟩ := hc.row (Nat.succ_pos n)
    have hcount : (if 0 < r.refcount then r.refcount - 1 else r.refcount) = n := by rw [hn, if_pos] <;> omega
    simp only [hr, hcount]
    exact .of_live (Table.get_insert_self ..) hs
  · rw [if_neg heq] at hc
    refine hc.congr ?_
    split
    · rfl
    · exact Table.get_insert_ne _ _ (Ne.symm heq)

theorem incAll_counted {h : Hash} {now : Time} {ps : List PartRef} {parts parts' : Parts} {n : Nat}
    (hi : incAll now parts ps = .ok parts') (hc : Counted h parts n)
    (hfit : n + ps.countP (·.hash = h) ≤ u32Max) : Counted h parts' (n + ps.countP (·.hash = h)) := by
  induction ps generalizing parts n with
  | nil => cases hi; exact hc
  | cons p ps ih =>
    simp only [incAll] at hi
    cases hp : incPartRefcount parts p.hash p.size now with
    | error e => rw [hp] at hi; cases hi
    | ok mid =>
      rw [hp] at hi
      have e : (p :: ps).countP (·.hash = h) = (if p.hash = h then 1 else 0) + ps.countP (·.hash = h) := by
        simp [List.countP_cons, Nat.add_comm]
      rw [e] at hfit ⊢
      have := ih hi (inc_counted hp hc (by omega)) (by omega)
      rwa [Nat.add_assoc] at this

theorem decAll_counted {h : Hash} {ps : List PartRef} {parts : Parts} {n : Nat}
    (hc : Counted h parts (n + ps.countP (·.hash = h))) : Counted h (decAll parts ps).1 n := by
  induction ps generalizing parts n with
  | nil => exact hc
  | cons p ps ih =>
    have e : n + (p :: ps).countP (·.hash = h) = (n + ps.countP (·.hash = h)) + if p.hash = h then 1 else 0 := by
      simp [List.countP_cons, Nat.add_assoc]
    rw [e] at hc
    exact ih (dec_counted hc)

/-- No row is marked for collection. -/
def Live (parts : Parts) : Prop := ∀ h e, parts.get h = some e → e.state = .live

theorem Live.insert {parts : Parts} (hl : Live parts) {h : Hash} {e : PartEntry} (he : e.state = .live) :
    Live (parts.insert h e) := by
  intro h' e' he'
  rw [Table.get_insert] at he'
  split at he'
  · cases he'; exact he
  · exact hl h' e' he'

theorem incAll_live (now : Time) (ps : List PartRef) {parts : Parts} (hl : Live parts) :
    ∃ parts', incAll now parts ps = .ok parts' ∧ Live parts' := by
  induction ps generalizing parts with
  | nil => exact ⟨parts, rfl, hl⟩
  | cons p ps ih =>
    cases hp : incPartRefcount parts p.hash p.size now with
    | error e =>
      simp only [incPartRefcount] at hp
      split at hp
      · rename_i r hr
        rw [if_neg (by rw [hl _ _ hr]; decide)] at hp
        cases hp
      · cases hp
    | ok mid =>
      obtain ⟨r, rfl, hr, -, -⟩ := inc_ok hp
      simp only [incAll, hp, Except.bind]
      exact ih (hl.insert hr)

theorem decAll_live {ps : List PartRef} {parts : Parts} (hl : Live parts) : Live (decAll parts ps).1 := by
  induction ps generalizing parts with
  | nil => exact hl
  | cons p ps ih =>
    refine ih ?_
    simp only [decPartRefcount]
    split
    · exact hl
    · rename_i r hr
      exact Live.insert hl (hl _ r hr)

theorem countP_eraseP {α : Type} (p q : α → Bool) {l : List α} {a : α} (h : l.find? p = some a) :
    (l.eraseP p).countP q + (if q a then 1 else 0) = l.countP q := by
  induction l with
  | nil => cases h
  | cons x l ih =>
    rw [List.find?_cons] at h
    cases hx : p x with
    | true => rw [hx] at h; cases h; simp [hx, List.countP_cons]
    | false =>
      rw [hx] at h
      have := ih h
      simp only [List.eraseP_cons, hx, cond_false, List.countP_cons]
      omega

/-- The part of the same number gives up its reference. -/
theorem dropReplaced_counted {h : Hash} {parts : Parts} {ps : List PartRef} (part : PartRef) {n : Nat}
    (hc : Counted h parts (n + ps.countP (·.hash = h))) :
    Counted h (dropReplaced parts ps part).1 (n + (dropReplaced parts ps part).2.2.countP (·.hash = h)) := by
  simp only [dropReplaced]
  cases hf : ps.find? fun p => p.partNumber = part.partNumber with
  | none => exact hc
  | some old =>
    have e := countP_eraseP _ (fun p : PartRef => decide (p.hash = h)) hf
    simp only [decide_eq_true_eq] at e
    rw [← e, ← Nat.add_assoc] at hc
    exact dec_counted hc

/-! ## The transactions -/

/-- The row of `h` holds its reference count. -/
def Exact (h : Hash) (db : Db) : Prop := Counted h db.parts (refs db h)

theorem refs_insert (objects : Objects) (k : Bytes) (m : Manifest) (h : Hash) :
    (objects.insert k m).sumBy (·.refs h) + (oldParts (objects.get k)).countP (·.hash = h) =
      objects.sumBy (·.refs h) + m.refs h := by
  have := objects.sumBy_insert (·.refs h) k m
  cases hk : objects.get k <;> rw [hk] at this <;> exact this

theorem refs_erase (objects : Objects) (k : Bytes) (h : Hash) :
    (objects.erase k).sumBy (·.refs h) + (oldParts (objects.get k)).countP (·.hash = h) = objects.sumBy (·.refs h) := by
  have := objects.sumBy_erase (·.refs h) k
  cases hk : objects.get k <;> rw [hk] at this <;> exact this

/-- A reference anywhere shows in the count. -/
theorem refs_pos {db : Db} {h : Hash} : 0 < refs db h ↔ ∃ r ∈ db.objects.rows, ∃ p ∈ r.2.parts, p.hash = h := by
  simp [refs, Table.sumBy_pos, Manifest.refs, List.countP_pos_iff]

section
variable {h : Hash} {db db' : Db} {effect : DeletionEffect} {now now' : Time}

theorem put_counted {m : Manifest} (hp : handlePutManifest db now m = .ok (effect, db'))
    (hc : Exact h db) (hfit : refs db h + m.refs h ≤ u32Max) : Exact h db' := by
  obtain ⟨parts, hi, -, rfl⟩ := put_ok hp
  have e := refs_insert db.objects m.key.encode m h
  refine decAll_counted ?_
  simp only [Exact, refs] at hc hfit ⊢
  rw [e]
  exact incAll_counted hi hc hfit

theorem delete_counted {key : ManifestKey} (hd : handleDeleteManifest db key = .ok (effect, db'))
    (hc : Exact h db) : Exact h db' := by
  obtain ⟨m, hk, -, rfl⟩ := delete_ok hd
  have e := refs_erase db.objects key.encode h
  rw [hk] at e
  refine decAll_counted ?_
  simp only [Exact, refs, oldParts] at hc e ⊢
  rwa [e]

/-- Rewriting fields of a manifest other than its parts moves no reference. -/
theorem update_refs {key : ManifestKey} {f : Manifest → Manifest} (hf : ∀ m, (f m).parts = m.parts)
    (hu : updateManifest db key f = .ok db') : db'.parts = db.parts ∧ refs db' h = refs db h := by
  obtain ⟨m, hk, rfl⟩ := update_ok hu
  refine ⟨rfl, ?_⟩
  have e := refs_insert db.objects key.encode (f m) h
  rw [hk] at e
  simp only [Manifest.refs, hf, oldParts, refs] at e ⊢
  exact Nat.add_right_cancel e

theorem append_counted {key : ManifestKey} {part : PartRef}
    (ha : handleAppendPart db now now' key part = .ok (effect, db')) (hc : Exact h db)
    (hfit : refs db' h ≤ u32Max) : Exact h db' := by
  obtain ⟨m, parts, hk, hi, -, rfl⟩ := append_ok ha
  obtain ⟨ps, hps⟩ : ∃ ps, (dropReplaced db.parts m.parts part).2.2 = ps := ⟨_, rfl⟩
  -- the references outside this manifest, which the transaction does not move
  have e1 := refs_erase db.objects key.encode h
  have e2 := refs_insert db.objects key.encode (m.withParts (sortParts (ps ++ [part])) now') h
  have e3 : (m.withParts (sortParts (ps ++ [part])) now').refs h = ps.countP (·.hash = h) + if part.hash = h then 1 else 0 := by
    simp only [Manifest.refs, Manifest.withParts, sortParts, (List.perm_insertionSort _ _).countP_eq,
      List.countP_append, List.countP_singleton, decide_eq_true_eq]
  rw [hk] at e1 e2
  simp only [Exact, refs, oldParts, hps] at e1 e2 hfit hc ⊢
  rw [← e1] at hc
  have hd := dropReplaced_counted part hc
  rw [hps] at hd
  have e : (db.objects.insert key.encode (m.withParts (sortParts (ps ++ [part])) now')).sumBy (·.refs h) =
      (db.objects.erase key.encode).sumBy (·.refs h) + ps.countP (·.hash = h) + if part.hash = h then 1 else 0 := by
    omega
  rw [e] at hfit ⊢
  exact inc_counted hi hd hfit

theorem complete_counted {key : ManifestKey} {m : Manifest}
    (hd : handleCompleteMultipart db now key m = .ok (effect, db')) (hkey : key.encode ≠ m.key.encode)
    (hc : Exact h db) (hfit : refs db' h ≤ u32Max) : Exact h db' := by
  obtain ⟨up, parts, hk, -, hi, -, rfl⟩ := complete_ok hd
  -- the references outside the upload's row and the committed row, which stay
  have e1 := refs_insert db.objects m.key.encode m h
  have e2 := refs_erase (db.objects.insert m.key.encode m) key.encode h
  have e3 := refs_erase ((db.objects.insert m.key.encode m).erase key.encode) m.key.encode h
  rw [Table.get_insert_ne _ _ hkey, hk] at e2
  rw [Table.get_erase_ne _ hkey.symm, Table.get_insert_self] at e3
  simp only [Exact, refs, oldParts, Manifest.refs] at e1 e2 e3 hc hfit ⊢
  rw [← e3] at hfit ⊢
  refine incAll_counted hi (decAll_counted (decAll_counted ?_)) hfit
  convert hc using 1
  simp only [oldParts]
  omega

theorem mark_counted {h' : Hash} {granted : Bool} (hm : handleMarkGcPending db h' = .ok (granted, db'))
    (hc : Exact h db) : Exact h db' := by
  obtain ⟨e, he, ⟨-, -, rfl⟩ | ⟨-, hr, rfl⟩⟩ := mark_ok hm
  · exact hc
  · by_cases heq : h = h'
    · subst heq
      have hn : refs db h = 0 := by rw [← hc.count]; simp [refcount, he, hr]
      refine ⟨?_, fun e' he' _ => ?_⟩
      · simp only [refcount, Table.get_insert_self, Option.map_some, Option.getD_some, hr]
        exact hn.symm
      · rw [Table.get_insert_self] at he'
        cases he'
        exact hr
    · exact Counted.congr hc (Table.get_insert_ne _ _ heq)

/-- A granted hash has no references. -/
theorem mark_granted (hm : handleMarkGcPending db h = .ok (true, db')) (hc : Exact h db) : refs db h = 0 := by
  obtain ⟨e, he, ⟨hf, -⟩ | ⟨-, hr, -⟩⟩ := mark_ok hm
  · cases hf
  · rw [← hc.count]; simp [refcount, he, hr]

theorem remove_counted {h' : Hash} {parts : Parts} {n : Nat} (hc : Counted h parts n) (hn : h' = h → n = 0) :
    Counted h (parts.erase h') n := by
  by_cases heq : h = h'
  · subst heq
    exact ⟨by simp [refcount, hn rfl], fun e he => by simp at he⟩
  · exact hc.congr (Table.get_erase_ne _ heq)

end

/-! ## Runs -/

/-- A completion names its upload and its object by different keys … -/
def MetaOp.KeysDiffer : MetaOp → Prop
  | completeMultipartUpload inProgressKey newCommitted => inProgressKey ≠ newCommitted.key
  | _ => True

/-- … or, what the store tells apart, by different rows. -/
def MetaOp.RowsDiffer : MetaOp → Prop
  | completeMultipartUpload inProgressKey newCommitted => inProgressKey.encode ≠ newCommitted.key.encode
  | _ => True

/-- A put has room for its references to `h` beside those of the manifest it replaces. -/
def MetaOp.Fits (h : Hash) (db : Db) : MetaOp → Prop
  | putManifest m => refs db h + m.refs h < 2 ^ 32
  | _ => True

/-- The hash an operation was granted for collection. -/
def MetaOp.granted : (op : MetaOp) → op.Res → Option Hash
  | markPartGcPending h, .ok true => some h
  | _, _ => none

/-- The databases the operations reach from the empty store, with the hash the last
    operation was granted: a part is removed only right after its hash was granted. `Ok`
    is the condition on each operation, from the database before to the one after. -/
inductive MetaReach (Ok : Db → MetaOp → Db → Prop) : Db → Option Hash → Prop
  | empty : MetaReach Ok .empty none
  | op {db : Db} {granted : Option Hash} (op : MetaOp) (now now' : Time) : MetaReach Ok db granted →
      (∀ h, op = .removePart h → granted = some h) → Ok db op (op.exec now now' db).2 →
      MetaReach Ok (op.exec now now' db).2 (op.granted (op.exec now now' db).1)

/-- A property of the database before a transaction and of every database it may commit
    holds after it. -/
theorem commit_keeps {α : Type} {P : Db → Prop} {db : Db} {r : Except MetaError (α × Db)} (h0 : P db)
    (h : ∀ a db', r = .ok (a, db') → P db') : P (commit db r).2 := by
  cases r with
  | error e => exact h0
  | ok r => exact h r.1 r.2 rfl

theorem commit_keeps_ {P : Db → Prop} {db : Db} {r : Except MetaError Db} (h0 : P db)
    (h : ∀ db', r = .ok db' → P db') : P (commit_ db r).2 :=
  commit_keeps h0 fun a db' e => by
    cases r with
    | error e' => cases e
    | ok db'' => cases e; exact h _ rfl

section
variable {h : Hash} {db db' : Db}

theorem bucket_counted {name : Str} {f : BucketConfig → BucketConfig} (hu : updateBucket db name f = .ok db')
    (hc : Exact h db) : Exact h db' := by
  simp only [updateBucket] at hu
  split at hu <;> cases hu
  exact hc

theorem update_counted {key : ManifestKey} {f : Manifest → Manifest} (hf : ∀ m, (f m).parts = m.parts)
    (hu : updateManifest db key f = .ok db') (hc : Exact h db) :
    Exact h db' := by
  obtain ⟨h1, h2⟩ := update_refs (h := h) hf hu
  rwa [Exact, h1, h2]

/-- Every operation that has room keeps the count. -/
theorem exec_counted (op : MetaOp) (now now' : Time) (hrow : op.RowsDiffer) (hfit : op.Fits h db)
    (hroom : refs (op.exec now now' db).2 h < 2 ^ 32) (hremove : op = .removePart h → refs db h = 0)
    (hc : Exact h db) :
    Exact h (op.exec now now' db).2 := by
  have hmax : ∀ {n : Nat}, n < 2 ^ 32 → n ≤ u32Max := fun hn => Nat.le_sub_one_of_lt hn
  cases op with
  | createBucket name config =>
    refine commit_keeps_ (P := Exact h) hc fun db' e => ?_
    simp only [handleCreateBucket] at e
    split at e <;> cases e
    exact hc
  | deleteBucket name =>
    refine commit_keeps_ (P := Exact h) hc fun db' e => ?_
    simp only [handleDeleteBucket] at e
    split at e
    · cases e
    · split at e <;> cases e
      exact hc
  | putManifest m =>
    exact commit_keeps (P := Exact h) hc
      fun _ _ e => put_counted e hc (hmax hfit)
  | deleteManifest key =>
    exact commit_keeps (P := Exact h) hc fun _ _ e => delete_counted e hc
  | updateManifestState key newState =>
    exact commit_keeps_ (P := Exact h) hc
      fun _ e => update_counted (f := fun m => { m with state := newState, lastModified := now }) (fun _ => rfl) e hc
  | updateManifestTags key tags =>
    exact commit_keeps_ (P := Exact h) hc
      fun _ e => update_counted (f := fun m => { m with tags := tags }) (fun _ => rfl) e hc
  | updateManifestLock key lock =>
    exact commit_keeps_ (P := Exact h) hc
      fun _ e => update_counted (f := fun m => { m with objectLock := lock }) (fun _ => rfl) e hc
  | updateBucketVersioning name newState =>
    exact commit_keeps_ (P := Exact h) hc fun _ e => bucket_counted e hc
  | updateBucketCors name rules =>
    exact commit_keeps_ (P := Exact h) hc fun _ e => bucket_counted e hc
  | updateBucketObjectLock name cfg =>
    exact commit_keeps_ (P := Exact h) hc fun _ e => bucket_counted e hc
  | updateBucketLifecycle name rules =>
    exact commit_keeps_ (P := Exact h) hc fun _ e => bucket_counted e hc
  | appendPart key part =>
    simp only [MetaOp.exec] at hroom ⊢
    cases e : handleAppendPart db now now' key part with
    | error _ => exact hc
    | ok r => rw [e] at hroom; exact append_counted e hc (hmax hroom)
  | completeMultipartUpload key m =>
    simp only [MetaOp.exec] at hroom ⊢
    cases e : handleCompleteMultipart db now key m with
    | error _ => exact hc
    | ok r => rw [e] at hroom; exact complete_counted e hrow hc (hmax hroom)
  | markPartGcPending hash =>
    exact commit_keeps (P := Exact h) hc fun _ _ e => mark_counted e hc
  | removePart hash => exact remove_counted hc fun e => hremove (e ▸ rfl)
  | _ => exact hc

end

/-- Over every run whose operations have room for `h`, the stored count is the number of
    references, a referenced hash has a row, and a row marked for collection counts 0 and
    has no references. -/
theorem refcounts_exact {h : Hash} {db : Db} {granted : Option Hash}
    (hr : MetaReach (fun db op db' => op.RowsDiffer ∧ op.Fits h db ∧ refs db' h < 2 ^ 32) db granted) :
    refcount db.parts h = refs db h ∧ (0 < refs db h → ∃ e, db.parts.get h = some e) ∧
      ∀ e, db.parts.get h = some e → e.state = .gcPending → e.refcount = 0 ∧ refs db h = 0 := by
  have hinv : Exact h db ∧ (granted = some h → refs db h = 0) := by
    induction hr with
    | empty => exact ⟨⟨rfl, fun e he => by cases he⟩, nofun⟩
    | @op db granted op now now' _ hgrant hok ih =>
      obtain ⟨hrow, hfit, hroom⟩ := hok
      have hc := exec_counted op now now' hrow hfit hroom (fun e => ih.2 (hgrant h e)) ih.1
      refine ⟨hc, fun hg => ?_⟩
      cases op with
      | markPartGcPending hash =>
        simp only [MetaOp.exec] at hg hc ⊢
        cases e : handleMarkGcPending db hash with
        | error _ => rw [e] at hg; cases hg
        | ok r =>
          obtain ⟨b, db'⟩ := r
          rw [e] at hg hc
          cases b with
          | false => cases hg
          | true =>
            cases hg
            have h0 := mark_granted e ih.1
            obtain ⟨_, _, ⟨hf, -⟩ | ⟨-, -, rfl⟩⟩ := mark_ok e
            · cases hf
            · exact h0
      | _ => cases hg
  exact ⟨hinv.1.count, fun hn => (hinv.1.row hn).imp fun _ he => he.1,
    fun _ he hs => hinv.1.pending_unreferenced he hs⟩

/-- A manifest that lists the given parts and is bare otherwise. -/
def bare (key : ManifestKey) (state : ManifestState) (parts : List PartRef) : Manifest where
  key := key
  state := state
  kind := .object
  uploadMode := .singlePut
  parts := parts
  size := 0
  contentType := none
  userMetadata := .empty
  tags := .empty
  additionalChecksum := none
  storageClass := str "STANDARD"
  objectLock := none
  createdAt := 0
  lastModified := 0
  uploadId := none

def key0 : ManifestKey := ⟨[97], [98], [99]⟩

def part0 : PartRef := ⟨1, .replicate 32 0, .replicate 16 0, 0⟩

theorem refcounts_exact_after_a_put :
    refcount (MetaOp.exec 0 0 (.putManifest (bare key0 .committed [part0])) .empty).2.parts part0.hash =
      refs (MetaOp.exec 0 0 (.putManifest (bare key0 .committed [part0])) .empty).2 part0.hash :=
  (refcounts_exact (.op (.putManifest (bare key0 .committed [part0])) 0 0 .empty (fun _ e => by cases e)
    ⟨trivial, (by decide : refs .empty part0.hash + (bare key0 .committed [part0]).refs part0.hash < 2 ^ 32),
      by decide⟩)).1

/-! ## Traces -/

theorem refs_le_length (db : Db) (h : Hash) : refs db h ≤ db.objects.sumBy fun m => m.parts.length :=
  List.sum_le_sum fun _ _ => List.countP_le_length

/-- An upload stored at `a/b\0c` under the id `d`, then completed into `a/b` under the
    version id `c\0d`: two keys, one row. -/
def aliased1 : Db := (MetaOp.exec 0 0 (.putManifest (bare ⟨[97], [98, 0, 99], [100]⟩ .inProgress [part0])) .empty).2

def aliased2 : Db :=
  (MetaOp.exec 0 0
    (.completeMultipartUpload ⟨[97], [98, 0, 99], [100]⟩ (bare ⟨[97], [98], [99, 0, 100]⟩ .committed [part0])) aliased1).2

/-- A manifest of the given parts, then replaced by one with a single reference. -/
def full1 (ps : List PartRef) : Db := (MetaOp.exec 0 0 (.putManifest (bare key0 .committed ps)) .empty).2

def full2 (ps : List PartRef) : Db := (MetaOp.exec 0 0 (.putManifest (bare key0 .committed [part0])) (full1 ps)).2

/-- As many references as a count can hold. -/
def fullParts : List PartRef := .replicate u32Max part0

theorem exec_put {db db' : Db} {now now' : Time} {m : Manifest} {effect : DeletionEffect}
    (hp : handlePutManifest db now m = .ok (effect, db')) : ((MetaOp.putManifest m).exec now now' db).2 = db' := by
  rw [MetaOp.exec, hp, commit_ok]

theorem put_live (now : Time) (m : Manifest) {db : Db} (hl : Live db.parts) :
    ∃ effect db', handlePutManifest db now m = .ok (effect, db') ∧ Live db'.parts := by
  obtain ⟨parts, hi, hp⟩ := incAll_live now m.parts hl
  exact ⟨_, _, by simp only [handlePutManifest, hi, Except.bind]; rfl, decAll_live hp⟩

section
variable {ps : List PartRef}

theorem full1_counted (hps : (bare key0 .committed ps).refs part0.hash = u32Max) :
    refs (full1 ps) part0.hash = u32Max ∧ Exact part0.hash (full1 ps) ∧ Live (full1 ps).parts ∧
      (full1 ps).objects = Table.empty.insert key0.encode (bare key0 .committed ps) := by
  have hempty : Live Db.empty.parts := by
    intro h e he
    cases he
  obtain ⟨effect, db', hp, hl⟩ := put_live 0 (bare key0 .committed ps) hempty
  have hf : full1 ps = db' := exec_put hp
  have h0 : refs .empty part0.hash = 0 := rfl
  have hexact := put_counted (h := part0.hash) hp ⟨rfl, fun e he => by cases he⟩ (by rw [hps, h0, Nat.zero_add])
  have e := refs_insert Db.empty.objects key0.encode (bare key0 .committed ps) part0.hash
  obtain ⟨parts, -, -, rfl⟩ := put_ok hp
  have h1 : (oldParts (Db.empty.objects.get key0.encode)).countP (·.hash = part0.hash) = 0 := rfl
  simp only [refs] at h0
  rw [hps, h1, h0, Nat.zero_add, Nat.add_zero] at e
  rw [hf]
  exact ⟨e, hexact, hl, rfl⟩

/-- Counting one more reference leaves a full count as it is. -/
theorem full1_saturates (hps : (bare key0 .committed ps).refs part0.hash = u32Max) {parts : Parts}
    (hi : incAll 0 (full1 ps).parts [part0] = .ok parts) :
    (oldParts ((full1 ps).objects.get key0.encode)).countP (·.hash = part0.hash) = u32Max ∧
      Counted part0.hash parts (0 + (oldParts ((full1 ps).objects.get key0.encode)).countP (·.hash = part0.hash)) := by
  obtain ⟨hrefs, hexact, -, hobj⟩ := full1_counted hps
  have hold : (oldParts ((full1 ps).objects.get key0.encode)).countP (·.hash = part0.hash) = u32Max := by
    rw [hobj, Table.get_insert_self]
    exact hps
  refine ⟨hold, ?_⟩
  cases hinc : incPartRefcount (full1 ps).parts part0.hash part0.size 0 with
  | error err => simp only [incAll, hinc, Except.bind] at hi; cases hi
  | ok mid =>
    simp only [incAll, hinc, Except.bind, Except.ok.injEq] at hi
    subst hi
    obtain ⟨r, rfl, hlive, hn, -⟩ := inc_ok hinc
    rw [hexact.count, hrefs, Nat.min_eq_right (Nat.le_succ _)] at hn
    rw [hold, Nat.zero_add, ← hn]
    exact .of_live (Table.get_insert_self ..) hlive

theorem full2_lost (hps : (bare key0 .committed ps).refs part0.hash = u32Max) :
    refs (full2 ps) part0.hash = 1 ∧ refcount (full2 ps).parts part0.hash = 0 ∧
      (full2 ps).objects = (full1 ps).objects.insert key0.encode (bare key0 .committed [part0]) := by
  obtain ⟨hrefs, -, hl, -⟩ := full1_counted hps
  obtain ⟨effect, db', hp, -⟩ := put_live 0 (bare key0 .committed [part0]) hl
  have hf : full2 ps = db' := exec_put hp
  have e := refs_insert (full1 ps).objects key0.encode (bare key0 .committed [part0]) part0.hash
  obtain ⟨parts, hi, -, rfl⟩ := put_ok hp
  obtain ⟨hold, hc⟩ := full1_saturates hps hi
  have hone : (bare key0 .committed [part0]).refs part0.hash = 1 := by decide
  rw [hf]
  refine ⟨?_, (decAll_counted hc).count, rfl⟩
  rw [hold, hone] at e
  simp only [refs] at hrefs e ⊢
  rw [hrefs] at e
  exact Nat.add_right_cancel (e.trans (Nat.add_comm ..))

theorem MetaReach.put {Ok : Db → MetaOp → Db → Prop} {db : Db} {granted : Option Hash} (m : Manifest)
    (hr : MetaReach Ok db granted) (hok : Ok db (.putManifest m) (MetaOp.exec 0 0 (.putManifest m) db).2) :
    MetaReach Ok (MetaOp.exec 0 0 (.putManifest m) db).2 none := .op _ 0 0 hr (fun _ e => by cases e) hok

theorem full2_reach (hps : (bare key0 .committed ps).refs part0.hash = u32Max) (hlen : ps.length = u32Max) :
    MetaReach (fun _ op db' => op.RowsDiffer ∧ ∀ h, refs db' h < 2 ^ 32) (full2 ps) none := by
  have hlt : u32Max < 2 ^ 32 := by decide
  have h1 : ∀ h, refs (full1 ps) h < 2 ^ 32 := fun h => by
    refine lt_of_le_of_lt (refs_le_length _ h) ?_
    rw [(full1_counted hps).2.2.2]
    simpa [Table.sumBy, Table.insert, Table.empty, Table.insertRow, bare, hlen] using hlt
  have h2 : ∀ h, refs (full2 ps) h < 2 ^ 32 := fun h => by
    refine lt_of_le_of_lt (refs_le_length _ h) ?_
    rw [(full2_lost hps).2.2, (full1_counted hps).2.2.2]
    simp [Table.sumBy, Table.insert, Table.empty, Table.insertRow, bare]
  exact .put _ (.put _ .empty ⟨trivial, h1⟩) ⟨trivial, h2⟩

end

/-- Two ways a count drifts although no hash ever has 2^32 references: completing an upload
    into its own row under another key, and a put that replaces a manifest while the count
    is full. -/
theorem counts_drift :
    (MetaReach (fun _ op db' => op.KeysDiffer ∧ ∀ h, refs db' h < 2 ^ 32) aliased2 none ∧
      refcount aliased2.parts part0.hash ≠ refs aliased2 part0.hash) ∧
    (MetaReach (fun _ op db' => op.RowsDiffer ∧ ∀ h, refs db' h < 2 ^ 32) (full2 fullParts) none ∧
      refcount (full2 fullParts).parts part0.hash ≠ refs (full2 fullParts) part0.hash) := by
  have hfew : ∀ {db : Db}, (db.objects.sumBy fun m => m.parts.length) < 2 ^ 32 → ∀ h, refs db h < 2 ^ 32 :=
    fun hlt h => lt_of_le_of_lt (refs_le_length _ h) hlt
  have hps : (bare key0 .committed fullParts).refs part0.hash = u32Max := by
    simp [Manifest.refs, bare, fullParts, List.countP_replicate]
  have hkeys : (⟨[97], [98, 0, 99], [100]⟩ : ManifestKey) ≠ ⟨[97], [98], [99, 0, 100]⟩ := by decide
  refine ⟨⟨?_, by decide⟩, full2_reach hps (by simp [fullParts]), ?_⟩
  · exact .op (.completeMultipartUpload ⟨[97], [98, 0, 99], [100]⟩ (bare ⟨[97], [98], [99, 0, 100]⟩ .committed [part0]))
      0 0 (.put _ .empty ⟨trivial, hfew (by decide)⟩) (fun _ e => by cases e) ⟨hkeys, hfew (by decide)⟩
  · rw [(full2_lost hps).1, (full2_lost hps).2.1]
    decide

end S3lite
