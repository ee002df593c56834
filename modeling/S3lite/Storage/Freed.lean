/-
  S3lite.Storage.Freed — the hashes a transaction reports as freed.

  The transactions compute the list in different ways: put and delete while they drop the
  references, append by the replaced part alone, complete in a second pass over the parts it
  dropped.
  - `decAll_freed`, `collectFreed_freed`: what the two ways report of one hash.
  - `freed_parts_exact`: as long as no count saturates, the list has, once each, the hashes
    that were referenced before and are not after.
  - `freed_parts_drift`: a put that replaces a full count frees a hash it references, and
    completing an upload into its own row loses a hash unreported.
-/
import S3lite.Storage.Steps
import S3lite.Storage.Refcount

namespace S3lite

/-- The list has the hash once if the condition holds, and not at all otherwise. -/
structure Reports (h : Hash) (freed : List Hash) (p : Prop) : Prop where
  once : freed.count h ≤ 1
  mem : h ∈ freed ↔ p

theorem Reports.nil {h : Hash} {p : Prop} (hp : ¬ p) : Reports h [] p := ⟨by simp, by simp [hp]⟩

theorem Reports.congr {h : Hash} {freed : List Hash} {p q : Prop} (hr : Reports h freed p) (hpq : p ↔ q) :
    Reports h freed q := ⟨hr.once, hr.mem.trans hpq⟩

/-- At most one of two lists has the hash. -/
theorem Reports.append {h : Hash} {a b : List Hash} {p q : Prop} (ha : Reports h a p) (hb : Reports h b q)
    (hpq : ¬ (p ∧ q)) : Reports h (a ++ b) (p ∨ q) := by
  refine ⟨?_, by rw [List.mem_append, ha.mem, hb.mem]⟩
  rw [List.count_append]
  by_cases h' : p
  · have hb0 : b.count h = 0 := List.count_eq_zero.mpr fun hm => hpq ⟨h', hb.mem.mp hm⟩
    have := ha.once
    omega
  · have ha0 : a.count h = 0 := List.count_eq_zero.mpr fun hm => h' (ha.mem.mp hm)
    have := hb.once
    omega

/-! ## The two ways -/

/-- A reference dropped frees the hash if it was the last. -/
theorem dec_freed {h h' : Hash} {parts : Parts} {n : Nat} (hc : Counted h parts (n + if h' = h then 1 else 0)) :
    Reports h (decPartRefcount parts h').2.toList (h' = h ∧ n = 0) := by
  unfold decPartRefcount
  by_cases heq : h' = h
  · subst heq
    rw [if_pos rfl] at hc
    obtain ⟨r, hr, hn, -⟩ := hc.row (Nat.succ_pos n)
    have hcount : (if 0 < r.refcount then r.refcount - 1 else r.refcount) = n := by rw [hn, if_pos] <;> omega
    simp only [hr, hcount]
    by_cases h0 : n = 0
    · subst h0
      exact ⟨by simp, by simp⟩
    · rw [if_neg h0]
      exact .nil fun hp => h0 hp.2
  · have hnil : ∀ o : Option Hash, (∀ x, o = some x → x = h') → Reports h o.toList (h' = h ∧ n = 0) := by
      intro o ho
      have hmem : h ∉ o.toList := by
        intro hm
        exact heq (ho h (Option.mem_toList.mp hm)).symm
      exact ⟨by rw [List.count_eq_zero.mpr hmem]; omega, iff_of_false hmem fun hp => heq hp.1⟩
    apply hnil
    intro x hx
    split at hx
    · cases hx
    · simp only [Option.ite_none_right_eq_some, Option.some.injEq] at hx
      exact hx.2.symm

/-- The loop over an old manifest's parts frees what it drops the last reference to. -/
theorem decAll_freed {h : Hash} {ps : List PartRef} {parts : Parts} {n : Nat}
    (hc : Counted h parts (n + ps.countP (·.hash = h))) :
    Reports h (decAll parts ps).2 (0 < ps.countP (·.hash = h) ∧ n = 0) := by
  induction ps generalizing parts with
  | nil => exact .nil fun hp => absurd hp.1 (by simp)
  | cons p ps ih =>
    have e : n + (p :: ps).countP (·.hash = h) = (n + ps.countP (·.hash = h)) + if p.hash = h then 1 else 0 := by
      simp [List.countP_cons, Nat.add_assoc]
    rw [e] at hc
    have hhead := dec_freed hc
    have htail := ih (dec_counted hc)
    refine (hhead.append htail ?_).congr ?_
    · rintro ⟨⟨-, h1⟩, h2, -⟩
      omega
    · rw [List.countP_cons]
      by_cases hp : p.hash = h
      · simp only [hp, true_and, decide_true, if_true]
        omega
      · simp [hp]

/-- The second pass reports the parts dropped that are not counted any more. -/
theorem collectFreed_freed {h : Hash} {newHashes : List Hash} {parts : Parts} {considered : List Hash}
    {ps : List PartRef} :
    Reports h (collectFreed newHashes parts considered ps)
      (h ∉ considered ∧ h ∉ newHashes ∧ (∃ p ∈ ps, p.hash = h) ∧ ∃ e, parts.get h = some e ∧ e.refcount = 0) := by
  induction ps generalizing considered with
  | nil => exact .nil fun hp => by simpa using hp.2.2.1
  | cons p ps ih =>
    unfold collectFreed
    split
    · rename_i hskip
      refine ih.congr (and_congr_right fun h1 => and_congr_right fun h2 => and_congr_left fun _ => ?_)
      -- the part skipped is none of the hash's
      have hp : p.hash ≠ h := fun e => hskip.elim (fun hm => h1 (e ▸ hm)) fun hm => h2 (e ▸ hm)
      simp [hp]
    · rename_i hskip
      obtain ⟨hcons, hnew⟩ := not_or.mp hskip
      have hrest : Reports h (collectFreed newHashes parts (p.hash :: considered) ps)
          (h ∉ p.hash :: considered ∧ h ∉ newHashes ∧ (∃ p ∈ ps, p.hash = h) ∧ ∃ e, parts.get h = some e ∧ e.refcount = 0) := ih
      by_cases hp : p.hash = h
      · subst hp
        have hnot : p.hash ∉ collectFreed newHashes parts (p.hash :: considered) ps := fun hm =>
          (hrest.mem.mp hm).1 (List.mem_cons_self ..)
        have h0 := List.count_eq_zero.mpr hnot
        have hsome : ∃ q ∈ p :: ps, q.hash = p.hash := ⟨p, List.mem_cons_self .., rfl⟩
        simp only
        split
        · rename_i e he
          split
          · rename_i hr
            exact ⟨by rw [List.count_cons_self, h0], iff_of_true (List.mem_cons_self ..) ⟨hcons, hnew, hsome, e, he, hr⟩⟩
          · rename_i hr
            refine ⟨by omega, iff_of_false hnot ?_⟩
            rintro ⟨-, -, -, e', he', hr'⟩
            rw [he] at he'
            cases he'
            exact hr hr'
        · rename_i he
          refine ⟨by omega, iff_of_false hnot ?_⟩
          rintro ⟨-, -, -, e', he', -⟩
          rw [he] at he'
          cases he'
      · have hrest' : Reports h (collectFreed newHashes parts (p.hash :: considered) ps)
            (h ∉ considered ∧ h ∉ newHashes ∧ (∃ q ∈ p :: ps, q.hash = h) ∧ ∃ e, parts.get h = some e ∧ e.refcount = 0) := by
          refine hrest.congr ?_
          have hne : h ≠ p.hash := fun e => hp e.symm
          simp [hp, hne]
        have hcons' : Reports h (p.hash :: collectFreed newHashes parts (p.hash :: considered) ps)
            (h ∉ considered ∧ h ∉ newHashes ∧ (∃ q ∈ p :: ps, q.hash = h) ∧ ∃ e, parts.get h = some e ∧ e.refcount = 0) := by
          refine ⟨?_, ?_⟩
          · rw [List.count_cons_of_ne hp]
            exact hrest'.once
          · rw [List.mem_cons, or_iff_right (fun e => hp e.symm)]
            exact hrest'.mem
        simp only
        split
        · split
          · exact hcons'
          · exact hrest'
        · exact hrest'

/-! ## The transactions -/

section
variable {h : Hash} {db db' : Db} {effect : DeletionEffect} {now now' : Time}

theorem put_freed {m : Manifest} (hp : handlePutManifest db now m = .ok (effect, db')) (hc : Exact h db)
    (hfit : refs db h + m.refs h ≤ u32Max) : Reports h effect.freedParts (0 < refs db h ∧ refs db' h = 0) := by
  obtain ⟨parts, hi, rfl, rfl⟩ := put_ok hp
  have e := refs_insert db.objects m.key.encode m h
  have hm : m.refs h ≤ (db.objects.insert m.key.encode m).sumBy (·.refs h) :=
    Table.le_sumBy (fun m : Manifest => m.refs h) (Table.mem_insert.mpr (Or.inl rfl))
  simp only [Exact, refs] at hc hfit ⊢
  have hinc := incAll_counted hi hc hfit
  rw [show m.parts.countP (·.hash = h) = m.refs h from rfl, ← e] at hinc
  refine (decAll_freed hinc).congr (and_congr_left fun h0 => ?_)
  omega

theorem delete_freed {key : ManifestKey} (hd : handleDeleteManifest db key = .ok (effect, db')) (hc : Exact h db) :
    Reports h effect.freedParts (0 < refs db h ∧ refs db' h = 0) := by
  obtain ⟨m, hk, rfl, rfl⟩ := delete_ok hd
  have e := refs_erase db.objects key.encode h
  rw [hk] at e
  simp only [Exact, refs, oldParts] at hc e ⊢
  rw [← e] at hc ⊢
  refine (decAll_freed hc).congr (and_congr_left fun h0 => ?_)
  omega

/-- The part of the same number is freed if it gave up the last reference; the same hash is
    counted again. -/
theorem dropReplaced_freed {parts : Parts} {ps : List PartRef} (part : PartRef) {n : Nat}
    (hc : Counted h parts (n + ps.countP (·.hash = h))) :
    Reports h (dropReplaced parts ps part).2.1
      (part.hash ≠ h ∧ 0 < ps.countP (·.hash = h) ∧ n + (dropReplaced parts ps part).2.2.countP (·.hash = h) = 0) := by
  unfold dropReplaced
  cases hf : ps.find? fun p => p.partNumber = part.partNumber with
  | none => exact .nil fun hp => by simp only at hp; omega
  | some old =>
    have e := countP_eraseP _ (fun p : PartRef => decide (p.hash = h)) hf
    simp only [decide_eq_true_eq] at e
    rw [← e, ← Nat.add_assoc] at hc
    simp only
    have hd := dec_freed hc
    split
    · rename_i hne
      refine hd.congr ⟨fun ⟨ho, h0⟩ => ⟨fun hp => hne (ho.trans hp.symm), ?_, h0⟩, fun ⟨hp, hpos, h0⟩ => ⟨?_, h0⟩⟩
      · rw [← e, if_pos ho]
        omega
      · by_contra ho
        rw [if_neg ho] at e
        omega
    · rename_i heq
      refine .nil fun ⟨hp, hpos, h0⟩ => ?_
      have ho : old.hash ≠ h := fun ho => hp ((not_not.mp heq).symm.trans ho)
      rw [if_neg ho] at e
      omega

theorem append_freed {key : ManifestKey} {part : PartRef}
    (ha : handleAppendPart db now now' key part = .ok (effect, db')) (hc : Exact h db) :
    Reports h effect.freedParts (0 < refs db h ∧ refs db' h = 0) := by
  obtain ⟨m, parts, hk, hi, rfl, rfl⟩ := append_ok ha
  obtain ⟨ps, hps⟩ : ∃ ps, (dropReplaced db.parts m.parts part).2.2 = ps := ⟨_, rfl⟩
  have e1 := refs_erase db.objects key.encode h
  have e2 := refs_insert db.objects key.encode (m.withParts (sortParts (ps ++ [part])) now') h
  have e3 : (m.withParts (sortParts (ps ++ [part])) now').refs h = ps.countP (·.hash = h) + if part.hash = h then 1 else 0 := by
    simp only [Manifest.refs, Manifest.withParts, sortParts, (List.perm_insertionSort _ _).countP_eq,
      List.countP_append, List.countP_singleton, decide_eq_true_eq]
  rw [hk] at e1 e2
  simp only [Exact, refs, oldParts, hps] at e1 e2 hc ⊢
  rw [← e1] at hc
  have hd := dropReplaced_freed part hc
  rw [hps] at hd
  refine hd.congr ?_
  by_cases hp : part.hash = h
  · rw [if_pos hp] at e3
    exact iff_of_false (fun hx => hx.1 hp) fun hx => by omega
  · rw [if_neg hp] at e3
    constructor
    · rintro ⟨-, h1, h2⟩
      omega
    · rintro ⟨h1, h2⟩
      refine ⟨hp, ?_, ?_⟩ <;> omega

/-- The loop over a new manifest's parts leaves the rows of other hashes. -/
theorem incAll_other {ps : List PartRef} {parts parts' : Parts} (hi : incAll now parts ps = .ok parts')
    (hh : ∀ p ∈ ps, p.hash ≠ h) : parts'.get h = parts.get h := by
  induction ps generalizing parts with
  | nil => cases hi; rfl
  | cons p ps ih =>
    simp only [incAll] at hi
    cases hp : incPartRefcount parts p.hash p.size now with
    | error e => rw [hp] at hi; cases hi
    | ok mid =>
      rw [hp] at hi
      obtain ⟨e, rfl, -⟩ := inc_ok hp
      have hne : h ≠ p.hash := fun e => hh p (List.mem_cons_self ..) e.symm
      rw [ih hi fun q hq => hh q (List.mem_cons_of_mem _ hq), Table.get_insert_ne _ _ hne]

theorem complete_freed {key : ManifestKey} {m : Manifest}
    (hd : handleCompleteMultipart db now key m = .ok (effect, db')) (hkey : key.encode ≠ m.key.encode)
    (hc : Exact h db) : Reports h effect.freedParts (0 < refs db h ∧ refs db' h = 0) := by
  obtain ⟨up, parts, hk, -, hi, rfl, rfl⟩ := complete_ok hd
  -- the references outside the upload's row and the committed row, which stay
  have e1 := refs_insert db.objects m.key.encode m h
  have e2 := refs_erase (db.objects.insert m.key.encode m) key.encode h
  have e3 := refs_erase ((db.objects.insert m.key.encode m).erase key.encode) m.key.encode h
  rw [Table.get_insert_ne _ _ hkey, hk] at e2
  rw [Table.get_erase_ne _ hkey.symm, Table.get_insert_self] at e3
  obtain ⟨old, hold⟩ : ∃ old, oldParts (db.objects.get m.key.encode) = old := ⟨_, rfl⟩
  obtain ⟨n, hn⟩ : ∃ n, refs { db with objects := (db.objects.insert m.key.encode m).erase key.encode, parts := parts } h = n :=
    ⟨_, rfl⟩
  have hrow := hc.row
  rw [hold] at hi e1 ⊢
  rw [hn]
  simp only [refs] at hn
  rw [hn] at e2 e3
  simp only [oldParts] at e2 e3
  simp only [Manifest.refs] at e1 e2 e3
  have hdb : refs db h = db.objects.sumBy fun m => m.parts.countP (·.hash = h) := rfl
  rw [← hdb] at e1
  refine collectFreed_freed.congr ?_
  have hdropped : (∃ p ∈ up.parts ++ old, p.hash = h) ↔ 0 < up.parts.countP (·.hash = h) + old.countP (·.hash = h) := by
    rw [← List.countP_append, List.countP_pos_iff]
    simp
  have hnew : h ∉ m.parts.map (·.hash) ↔ m.parts.countP (·.hash = h) = 0 := by
    rw [List.countP_eq_zero]
    simp
  rw [hdropped, hnew]
  by_cases h0 : m.parts.countP (·.hash = h) = 0
  · -- a hash the object does not list: its row is the one the decrements left
    have hnot : ∀ p ∈ m.parts, p.hash ≠ h := by simpa [List.countP_eq_zero] using h0
    have hcount : Counted h parts n := by
      refine Counted.congr (decAll_counted (decAll_counted ?_)) (incAll_other hi hnot)
      have e : n + old.countP (·.hash = h) + up.parts.countP (·.hash = h) = refs db h := by omega
      rw [e]
      exact hc
    constructor
    · rintro ⟨-, -, hpos, e, he, hr⟩
      have := hcount.count
      simp only [refcount, he, Option.map_some, Option.getD_some, hr] at this
      omega
    · rintro ⟨hpos, hn0⟩
      obtain ⟨e, he, -⟩ := hrow hpos
      obtain ⟨e', he', -⟩ := (((decAll_recounted up.parts db.parts).trans (decAll_recounted old _)).trans
        (incAll_recounted hi)).kept h e he
      have := hcount.count
      simp only [refcount, he', Option.map_some, Option.getD_some] at this
      exact ⟨List.not_mem_nil, h0, by omega, e', he', by omega⟩
  · exact iff_of_false (fun hx => h0 hx.2.1) fun hx => by omega

end

/-! ## Every transaction -/

/-- The effect a transaction that moves references replied with. -/
def MetaOp.effect : (op : MetaOp) → op.Res → Option DeletionEffect
  | putManifest _, .ok e => some e
  | deleteManifest _, .ok e => some e
  | appendPart .., .ok e => some e
  | completeMultipartUpload .., .ok e => some e
  | _, _ => none

theorem commit_effect {db : Db} {r : Except MetaError (DeletionEffect × Db)} {effect : DeletionEffect}
    (he : (commit db r).1 = .ok effect) : r = .ok (effect, (commit db r).2) := by
  cases r with
  | error e => cases he
  | ok r => cases he; rfl

/-- In a database whose counts are exact, a put that has room, a delete, an append, and a
    completion into another row report, once each, the hashes they leave without a reference. -/
theorem freed_parts_exact {db : Db} {op : MetaOp} {effect : DeletionEffect} (now now' : Time)
    (hcount : ∀ h, refcount db.parts h = refs db h)
    (hlive : ∀ h, 0 < refs db h → ∃ e, db.parts.get h = some e ∧ e.state = .live) (hrow : op.RowsDiffer)
    (hfits : ∀ h, op.Fits h db) (heffect : op.effect (op.exec now now' db).1 = some effect) :
    effect.freedParts.Nodup ∧
      ∀ h, h ∈ effect.freedParts ↔ 0 < refs db h ∧ refs (op.exec now now' db).2 h = 0 := by
  have hexact : ∀ h, Exact h db := by
    intro h
    refine ⟨hcount h, fun e he hs => ?_⟩
    have hc := hcount h
    simp only [refcount, he, Option.map_some, Option.getD_some] at hc
    by_contra hne
    obtain ⟨e', he', hs'⟩ := hlive h (by omega)
    rw [he] at he'
    cases he'
    rw [hs] at hs'
    cases hs'
  have hreports : ∀ h, Reports h effect.freedParts (0 < refs db h ∧ refs (op.exec now now' db).2 h = 0) := by
    intro h
    unfold MetaOp.effect at heffect
    split at heffect
    · rename_i m e he
      cases heffect
      exact put_freed (commit_effect he) (hexact h) (Nat.le_sub_one_of_lt (hfits h))
    · rename_i key e he
      cases heffect
      exact delete_freed (commit_effect he) (hexact h)
    · rename_i key part e he
      cases heffect
      exact append_freed (commit_effect he) (hexact h)
    · rename_i key m e he
      cases heffect
      exact complete_freed (commit_effect he) hrow (hexact h)
    · cases heffect
  exact ⟨List.nodup_iff_count_le_one.mpr fun h => (hreports h).once, fun h => (hreports h).mem⟩

theorem put_empty_exact {m : Manifest} (hm : m.parts.length ≤ u32Max) (h : Hash) :
    Exact h (MetaOp.exec 0 0 (.putManifest m) .empty).2 := by
  have hempty : Exact h .empty := ⟨rfl, fun _ e => by cases e⟩
  have h0 : refs .empty h = 0 := rfl
  have hle : m.refs h ≤ m.parts.length := List.countP_le_length
  exact commit_keeps (P := Exact h) hempty fun _ _ e => put_counted e hempty (by omega)

theorem freed_parts_exact_deleted :
    [part0.hash].Nodup ∧ ∀ h, h ∈ [part0.hash] ↔ 0 < refs (full1 [part0]) h ∧
      refs (MetaOp.exec 0 0 (.deleteManifest key0) (full1 [part0])).2 h = 0 := by
  have hexact : ∀ h, Exact h (full1 [part0]) := put_empty_exact (by decide)
  have heffect : (MetaOp.deleteManifest key0).effect (MetaOp.exec 0 0 (.deleteManifest key0) (full1 [part0])).1 =
      some ⟨[part0.hash]⟩ := by rfl
  refine freed_parts_exact 0 0 (fun h => (hexact h).count) ?_ trivial (fun _ => trivial) heffect
  intro h hpos
  obtain ⟨e, he, -, hs⟩ := (hexact h).row hpos
  exact ⟨e, he, hs⟩

theorem full2_frees {ps : List PartRef} (hps : (bare key0 .committed ps).refs part0.hash = u32Max)
    (hlen : ps.length = u32Max) : (∀ h, Exact h (full1 ps)) ∧ ∃ effect,
      (MetaOp.exec 0 0 (.putManifest (bare key0 .committed [part0])) (full1 ps)).1 = .ok effect ∧
        part0.hash ∈ effect.freedParts ∧ refs (full2 ps) part0.hash = 1 := by
  refine ⟨put_empty_exact (le_of_eq hlen), ?_⟩
  obtain ⟨effect, db', hp, -⟩ := put_live 0 (bare key0 .committed [part0]) (full1_counted hps).2.2.1
  refine ⟨effect, by rw [MetaOp.exec, hp, commit_ok], ?_, (full2_lost hps).1⟩
  obtain ⟨parts, hi, rfl, -⟩ := put_ok hp
  obtain ⟨hold, hc⟩ := full1_saturates hps hi
  refine (decAll_freed hc).mem.mpr ⟨?_, rfl⟩
  rw [hold]
  decide

/-- A put that replaces a full count frees a hash it references; completing an upload into
    its own row, under another key, leaves a hash unreferenced and unreported. -/
theorem freed_parts_drift :
    ((∀ h, Exact h (full1 fullParts)) ∧ ∃ effect,
      (MetaOp.exec 0 0 (.putManifest (bare key0 .committed [part0])) (full1 fullParts)).1 = .ok effect ∧
        part0.hash ∈ effect.freedParts ∧ refs (full2 fullParts) part0.hash = 1) ∧
    ((∀ h, Exact h aliased1) ∧
      (⟨[97], [98, 0, 99], [100]⟩ : ManifestKey) ≠ (bare ⟨[97], [98], [99, 0, 100]⟩ .committed [part0]).key ∧
      (MetaOp.exec 0 0 (.completeMultipartUpload ⟨[97], [98, 0, 99], [100]⟩
        (bare ⟨[97], [98], [99, 0, 100]⟩ .committed [part0])) aliased1).1 = .ok ⟨[]⟩ ∧
      0 < refs aliased1 part0.hash ∧ refs aliased2 part0.hash = 0) := by
  have hps : (bare key0 .committed fullParts).refs part0.hash = u32Max := by
    simp [Manifest.refs, bare, fullParts, List.countP_replicate]
  exact ⟨full2_frees hps (by simp [fullParts]), put_empty_exact (by decide), by decide, by rfl, by decide, by decide⟩

end S3lite
