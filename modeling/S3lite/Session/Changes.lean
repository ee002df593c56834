/-
  S3lite.Session.Changes — a transaction that writes rows, and the collection of what it frees.

  - `Settles`: what counting leaves in `PARTS`, for each of the four transactions.
  - `Change`: the transactions. `Change.Makes.cleared`, `Change.Makes.file`, `Change.Makes.stray`: what
    is left of the parts when what one freed is collected. `Change.Makes.row`: the rows it does not
    write.
-/
import S3lite.Vault.Effects
import S3lite.Storage.Freed

namespace S3lite

open Handler

/-! ## Counts -/

/-- No row counts 0. -/
def Cleared (parts : Parts) : Prop := ∀ h, ¬ Orphan parts h

/-- Counting moved the counts: a hash that is counted has a row, no row goes, and the hashes whose count
    is 0 now are reported. -/
structure Settles (counted freed : List Hash) (parts parts' : Parts) : Prop where
  counted : ∀ h ∈ counted, parts'.get h ≠ none
  kept : ∀ h, parts'.get h = none → parts.get h = none
  orphans : ∀ h, Orphan parts' h → Orphan parts h ∨ h ∈ freed

section
variable {parts parts' : Parts} {h : Hash} {now : Time}

theorem Recounted.kept_none {hs : List Hash} (hr : Recounted hs parts parts') (hnone : parts'.get h = none) : parts.get h = none := by
  cases he : parts.get h with
  | none => rfl
  | some e =>
    obtain ⟨e', he', -⟩ := hr.kept h e he
    rw [hnone] at he'
    cases he'

/-- What was just counted has a count. -/
theorem inc_orphan {h' : Hash} {size : Nat} (hi : incPartRefcount parts h' size now = .ok parts') (ho : Orphan parts' h) :
    Orphan parts h ∧ h ≠ h' := by
  obtain ⟨e, rfl, -, hn, -⟩ := inc_ok hi
  obtain ⟨e', he', h0⟩ := ho
  have hne : h ≠ h' := by
    intro heq
    subst heq
    rw [Table.get_insert_self] at he'
    cases he'
    have hmax : 0 < u32Max := by decide
    omega
  rw [Table.get_insert_ne _ _ hne] at he'
  exact ⟨⟨e', he', h0⟩, hne⟩

theorem incAll_orphan {ps : List PartRef} (hi : incAll now parts ps = .ok parts') (ho : Orphan parts' h) :
    Orphan parts h ∧ h ∉ ps.map (·.hash) := by
  induction ps generalizing parts with
  | nil =>
    cases hi
    exact ⟨ho, List.not_mem_nil⟩
  | cons p ps ih =>
    simp only [incAll] at hi
    cases hp : incPartRefcount parts p.hash p.size now with
    | error e =>
      rw [hp] at hi
      cases hi
    | ok mid =>
      rw [hp] at hi
      obtain ⟨hmid, hrest⟩ := ih hi
      obtain ⟨hparts, hne⟩ := inc_orphan hp hmid
      exact ⟨hparts, by simp [hne, hrest]⟩

theorem incAll_counted_row {ps : List PartRef} (hi : incAll now parts ps = .ok parts') (hm : h ∈ ps.map (·.hash)) :
    parts'.get h ≠ none := by
  induction ps generalizing parts with
  | nil => exact absurd hm List.not_mem_nil
  | cons p ps ih =>
    simp only [incAll] at hi
    cases hp : incPartRefcount parts p.hash p.size now with
    | error e =>
      rw [hp] at hi
      cases hi
    | ok mid =>
      rw [hp] at hi
      rcases List.mem_cons.mp hm with rfl | hm
      · intro hnone
        obtain ⟨e, rfl, -⟩ := inc_ok hp
        have hmid := (incAll_recounted hi).kept_none hnone
        rw [Table.get_insert_self] at hmid
        cases hmid
      · exact ih hi hm

/-- A count that drops to 0 is reported. -/
theorem dec_orphan {h' : Hash} (ho : Orphan (decPartRefcount parts h').1 h) :
    Orphan parts h ∨ h = h' ∧ (decPartRefcount parts h').2 = some h := by
  unfold decPartRefcount at ho ⊢
  cases he : parts.get h' with
  | none =>
    rw [he] at ho
    exact Or.inl ho
  | some e =>
    rw [he] at ho
    simp only at ho ⊢
    obtain ⟨e', he', h0⟩ := ho
    by_cases heq : h = h'
    · subst heq
      rw [Table.get_insert_self] at he'
      cases he'
      rw [if_pos h0]
      exact Or.inr ⟨rfl, rfl⟩
    · rw [Table.get_insert_ne _ _ heq] at he'
      exact Or.inl ⟨e', he', h0⟩

theorem decAll_orphan {ps : List PartRef} (ho : Orphan (decAll parts ps).1 h) :
    Orphan parts h ∨ h ∈ ps.map (·.hash) ∧ h ∈ (decAll parts ps).2 := by
  induction ps generalizing parts with
  | nil => exact Or.inl ho
  | cons p ps ih =>
    have ho : Orphan (decAll (decPartRefcount parts p.hash).1 ps).1 h := ho
    show _ ∨ _ ∧ h ∈ (decPartRefcount parts p.hash).2.toList ++ (decAll (decPartRefcount parts p.hash).1 ps).2
    rw [List.mem_append, List.map_cons, List.mem_cons]
    rcases ih ho with ho | ⟨hm, hfreed⟩
    · rcases dec_orphan ho with ho | ⟨heq, hfreed⟩
      · exact Or.inl ho
      · exact Or.inr ⟨Or.inl heq, Or.inl (Option.mem_toList.mpr hfreed)⟩
    · exact Or.inr ⟨Or.inr hm, Or.inr hfreed⟩

variable {db db' : Db} {effect : DeletionEffect} {now' : Time} {key : ManifestKey} {m : Manifest} {part : PartRef}

theorem put_settles (hp : handlePutManifest db now m = .ok (effect, db')) :
    Settles (m.parts.map (·.hash)) effect.freedParts db.parts db'.parts := by
  obtain ⟨mid, hi, rfl, rfl⟩ := put_ok hp
  have hdec := decAll_recounted (oldParts (db.objects.get m.key.encode)) mid
  refine ⟨fun h hm hnone => incAll_counted_row hi hm (hdec.kept_none hnone), fun h hnone => ?_, fun h ho => ?_⟩
  · exact (incAll_recounted hi).kept_none (hdec.kept_none hnone)
  · rcases decAll_orphan ho with ho | ⟨-, hfreed⟩
    · exact Or.inl (incAll_orphan hi ho).1
    · exact Or.inr hfreed

theorem delete_settles (hd : handleDeleteManifest db key = .ok (effect, db')) : Settles [] effect.freedParts db.parts db'.parts := by
  obtain ⟨m, -, rfl, rfl⟩ := delete_ok hd
  refine ⟨fun h hm => absurd hm List.not_mem_nil, fun h hnone => (decAll_recounted m.parts db.parts).kept_none hnone, fun h ho => ?_⟩
  rcases decAll_orphan ho with ho | ⟨-, hfreed⟩
  · exact Or.inl ho
  · exact Or.inr hfreed

theorem append_settles (ha : handleAppendPart db now now' key part = .ok (effect, db')) :
    Settles [part.hash] effect.freedParts db.parts db'.parts := by
  obtain ⟨m, parts, -, hi, rfl, rfl⟩ := append_ok ha
  have hdrop := dropReplaced_recounted db.parts m.parts part
  refine ⟨fun h hm hnone => ?_, fun h hnone => ?_, fun h ho => ?_⟩
  · obtain ⟨e, rfl, -⟩ := inc_ok hi
    rw [List.mem_singleton.mp hm, Table.get_insert_self] at hnone
    cases hnone
  · exact hdrop.kept_none ((inc_recounted hi).kept_none hnone)
  · obtain ⟨ho, hne⟩ := inc_orphan hi ho
    unfold dropReplaced at ho ⊢
    cases hfind : m.parts.find? fun p => p.partNumber = part.partNumber with
    | none =>
      rw [hfind] at ho
      exact Or.inl ho
    | some old =>
      rw [hfind] at ho
      simp only at ho ⊢
      rcases dec_orphan ho with ho | ⟨heq, hfreed⟩
      · exact Or.inl ho
      · rw [if_pos (heq ▸ hne)]
        exact Or.inr (Option.mem_toList.mpr hfreed)

theorem complete_settles (hc : handleCompleteMultipart db now key m = .ok (effect, db')) :
    Settles (m.parts.map (·.hash)) effect.freedParts db.parts db'.parts := by
  obtain ⟨up, parts, -, -, hi, rfl, rfl⟩ := complete_ok hc
  have hdec := (decAll_recounted up.parts db.parts).trans (decAll_recounted (oldParts (db.objects.get m.key.encode)) _)
  refine ⟨fun h hm => incAll_counted_row hi hm, fun h hnone => ?_, fun h ho => ?_⟩
  · exact hdec.kept_none ((incAll_recounted hi).kept_none hnone)
  · obtain ⟨hdecs, hnew⟩ := incAll_orphan hi ho
    -- the second pass looks at the parts that were dropped
    have hreported : h ∈ (up.parts ++ oldParts (db.objects.get m.key.encode)).map (·.hash) →
        h ∈ collectFreed (m.parts.map (·.hash)) parts [] (up.parts ++ oldParts (db.objects.get m.key.encode)) := by
      intro hm
      exact collectFreed_freed.mem.mpr ⟨List.not_mem_nil, hnew, List.mem_map.mp hm, ho⟩
    rw [List.map_append, List.mem_append] at hreported
    rcases decAll_orphan hdecs with hdecs | ⟨hm, -⟩
    · rcases decAll_orphan hdecs with hdecs | ⟨hm, -⟩
      · exact Or.inl hdecs
      · exact Or.inr (hreported (Or.inl hm))
    · exact Or.inr (hreported (Or.inr hm))

end

/-! ## Transactions -/

/-- A transaction that writes rows. -/
inductive Change where
  | put (m : Manifest)
  | remove (key : ManifestKey)
  | append (key : ManifestKey) (part : PartRef)
  | commit (upload : ManifestKey) (m : Manifest)

namespace Change

/-- From `w` to `w'` the transaction was made and what that freed was collected. -/
def Makes (env : Env) (w w' : World) : Change → Prop
  | put m => Puts env m w w'
  | remove key => ∃ removed, Removes key w removed w'
  | append key part => Appends env key part w w'
  | commit upload m => Commits env upload m w w'

/-- The rows it writes. -/
def keys : Change → List ManifestKey
  | put m => [m.key]
  | remove key => [key]
  | append key _ => [key]
  | commit upload m => [m.key, upload]

/-- The parts it counts. -/
def counts : Change → List PartRef
  | put m => m.parts
  | remove _ => []
  | append _ part => [part]
  | commit _ m => m.parts

variable {env : Env} {w w' : World} {c : Change} {h : Hash}

/-- The transaction, and the collection. -/
theorem Makes.settles (hc : c.Makes env w w') : ∃ freed db', Settles (c.counts.map (·.hash)) freed w.db.parts db'.parts ∧
    Collected freed { w with db := db', clock := w.clock + 2 } w' := by
  cases c with
  | put m =>
    obtain ⟨effect, db', hput, hgc⟩ := hc
    exact ⟨_, db', put_settles hput, hgc⟩
  | remove key =>
    obtain ⟨removed, hremoves⟩ := hc
    unfold Removes at hremoves
    split at hremoves
    · obtain ⟨-, rfl⟩ := hremoves
      exact ⟨[], w.db, ⟨fun h hm => absurd hm List.not_mem_nil, fun _ hnone => hnone, fun _ ho => Or.inl ho⟩, .refl _⟩
    · obtain ⟨-, effect, db', hdelete, hgc⟩ := hremoves
      exact ⟨_, db', delete_settles hdelete, hgc⟩
  | append key part =>
    obtain ⟨effect, db', happend, hgc⟩ := hc
    exact ⟨_, db', append_settles happend, hgc⟩
  | commit upload m =>
    obtain ⟨effect, db', hcomplete, hgc⟩ := hc
    exact ⟨_, db', complete_settles hcomplete, hgc⟩

/-- What it frees is collected, so no row counts 0 afterwards. -/
theorem Makes.cleared (hc : c.Makes env w w') (hcleared : Cleared w.db.parts) : Cleared w'.db.parts := by
  obtain ⟨freed, db', hsettles, hgc⟩ := hc.settles
  intro h ho
  by_cases hgone : h ∈ freed ∧ Orphan db'.parts h
  · obtain ⟨e, he, -⟩ := ho
    rw [(hgc.gone h hgone.1 hgone.2).1] at he
    cases he
  · have hkept := hgc.kept h fun hm ho => hgone ⟨hm, ho⟩
    have ho : Orphan db'.parts h := by
      obtain ⟨e, he, h0⟩ := ho
      rw [hkept.1] at he
      exact ⟨e, he, h0⟩
    rcases hsettles.orphans h ho with hold | hm
    · exact hcleared h hold
    · exact hgone ⟨hm, ho⟩

/-- The file of a row that is left is what it was. -/
theorem Makes.file (hc : c.Makes env w w') (hrow : w'.db.parts.get h ≠ none) : w'.files.get h = w.files.get h := by
  obtain ⟨freed, db', -, hgc⟩ := hc.settles
  exact (hgc.kept h fun hm ho => hrow (hgc.gone h hm ho).1).2

/-- A file that has no row was there without one before. -/
theorem Makes.stray (hc : c.Makes env w w') (hfile : w'.files.get h ≠ none) (hrow : w'.db.parts.get h = none) :
    w.files.get h ≠ none ∧ w.db.parts.get h = none ∧ h ∉ c.counts.map (·.hash) := by
  obtain ⟨freed, db', hsettles, hgc⟩ := hc.settles
  obtain ⟨hparts, hfiles⟩ := hgc.kept h fun hm ho => hfile (hgc.gone h hm ho).2
  have hnone : db'.parts.get h = none := hparts.symm.trans hrow
  rw [hfiles] at hfile
  exact ⟨hfile, hsettles.kept h hnone, fun hm => hsettles.counted h hm hnone⟩

/-- The other rows stay. -/
theorem Makes.row (hc : c.Makes env w w') {slot : Bytes} (hslot : ∀ k ∈ c.keys, slot ≠ k.encode) :
    w'.db.objects.get slot = w.db.objects.get slot := by
  cases c with
  | put m =>
    rw [(Puts.objects hc).1, Table.get_insert_ne _ _ (hslot _ (List.mem_singleton_self _))]
  | remove key =>
    obtain ⟨removed, hremoves⟩ := hc
    rw [hremoves.objects.1, Table.get_erase_ne _ (hslot _ (List.mem_singleton_self _))]
  | append key part =>
    obtain ⟨effect, db', happend, hgc⟩ := hc
    obtain ⟨m, parts, -, -, -, rfl⟩ := append_ok happend
    rw [hgc.objects]
    exact Table.get_insert_ne _ _ (hslot _ (List.mem_singleton_self _))
  | commit upload m =>
    rw [(Commits.objects hc).1, Table.get_erase_ne _ (hslot _ (List.mem_cons_of_mem _ (List.mem_singleton_self _))),
      Table.get_insert_ne _ _ (hslot _ (List.mem_cons_self ..))]

end Change

end S3lite
