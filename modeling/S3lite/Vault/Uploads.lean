/-
  S3lite.Vault.Uploads — the parts of an upload, and the object it becomes.

  - `piecesOf_withParts`: a part that is stored takes the place of the one with its number.
  - `lists_iff`: what a request lists of the vault's upload is what it selects of the stored parts.
  - `Shows.completes_iff`: so the vault's upload can be completed when the stored one can.
  - `Shows.appends`, `Shows.commits`: what storing a part and completing an upload do.
-/
import S3lite.Vault.Steps

namespace S3lite

/-! ## Parts by number -/

section
variable {parts : List PartRef} {part p : PartRef} {n : Nat}

theorem Ascending.find_iff (h : Ascending parts) :
    parts.find? (fun q => q.partNumber = n) = some p ↔ p ∈ parts ∧ p.partNumber = n := by
  constructor
  · intro hfind
    exact ⟨List.mem_of_find?_eq_some hfind, by simpa using List.find?_some hfind⟩
  · intro hp
    obtain ⟨hp, hn⟩ := hp
    induction h with
    | nil => exact absurd hp List.not_mem_nil
    | @cons a parts ha _ ih =>
      rcases List.mem_cons.mp hp with rfl | hp
      · exact List.find?_cons_of_pos (decide_eq_true hn)
      · have hlt := ha p hp
        rw [List.find?_cons_of_neg (by simp; omega)]
        exact ih hp

theorem Ascending.mem_eraseP_iff (h : Ascending parts) :
    p ∈ parts.eraseP (fun q => q.partNumber = n) ↔ p ∈ parts ∧ p.partNumber ≠ n := by
  induction h with
  | nil => simp
  | @cons a parts ha _ ih =>
    by_cases e : a.partNumber = n
    · rw [List.eraseP_cons_of_pos (by simpa using e), List.mem_cons]
      constructor
      · intro hp
        have hlt := ha p hp
        exact ⟨Or.inr hp, by omega⟩
      · intro hp
        rcases hp with ⟨rfl | hp, hn⟩
        · exact absurd e hn
        · exact hp
    · rw [List.eraseP_cons_of_neg (by simpa using e), List.mem_cons, List.mem_cons, ih]
      constructor
      · intro hp
        rcases hp with rfl | ⟨hp, hn⟩
        · exact ⟨Or.inl rfl, e⟩
        · exact ⟨Or.inr hp, hn⟩
      · intro hp
        obtain ⟨rfl | hp, hn⟩ := hp
        · exact Or.inl rfl
        · exact Or.inr ⟨hp, hn⟩

/-- Storing a part keeps each number once, in order. -/
theorem Ascending.replacePart (h : Ascending parts) (part : PartRef) : Ascending (replacePart parts part) := by
  have hdiffer : (parts.eraseP (fun p => p.partNumber = part.partNumber) ++ [part]).Pairwise fun p q => p.partNumber ≠ q.partNumber := by
    refine List.pairwise_append.mpr ⟨?_, List.pairwise_singleton _ _, fun p hp q hq => ?_⟩
    · exact (h.sublist List.eraseP_sublist).imp fun hlt => by omega
    · rw [List.mem_singleton.mp hq]
      exact (h.mem_eraseP_iff.mp hp).2
  have hperm := List.perm_insertionSort (fun a b : PartRef => a.partNumber ≤ b.partNumber)
    (parts.eraseP (fun p => p.partNumber = part.partNumber) ++ [part])
  have hne := (hperm.pairwise_iff (R := fun p q : PartRef => p.partNumber ≠ q.partNumber) fun h e => h e.symm).mpr hdiffer
  have hle := List.pairwise_insertionSort (fun a b : PartRef => a.partNumber ≤ b.partNumber)
    (parts.eraseP (fun p => p.partNumber = part.partNumber) ++ [part])
  exact (hle.and hne).imp fun h => by omega

theorem find_replacePart (h : Ascending parts) : (replacePart parts part).find? (fun q => q.partNumber = n) =
    if n = part.partNumber then some part else parts.find? fun q => q.partNumber = n := by
  refine Option.ext fun p => ?_
  rw [(h.replacePart part).find_iff, mem_replacePart, h.mem_eraseP_iff]
  split
  · rename_i e
    rw [e, Option.some.injEq]
    constructor
    · intro hp
      rcases hp with ⟨⟨-, hne⟩ | rfl, hn⟩
      · exact absurd hn hne
      · rfl
    · intro hp
      exact ⟨Or.inr hp.symm, by rw [hp]⟩
  · rename_i e
    rw [h.find_iff]
    constructor
    · intro hp
      rcases hp with ⟨⟨hp, -⟩ | rfl, hn⟩
      · exact ⟨hp, hn⟩
      · exact absurd hn.symm e
    · intro hp
      exact ⟨Or.inl ⟨hp.1, fun hn => e (hp.2.symm.trans hn)⟩, hp.2⟩

end

section
variable {env : Env} {w w' : World} {s : Vault}

theorem piecesOf_withParts {m : Manifest} (h : Ascending m.parts) (part : PartRef) (now : Time) :
    piecesOf w (m.withParts (replacePart m.parts part) now) =
      Function.update (piecesOf w m) part.partNumber (some (contentOf w part)) := by
  funext n
  show ((replacePart m.parts part).find? fun q => q.partNumber = n).map (contentOf w) = _
  rw [find_replacePart h]
  by_cases e : n = part.partNumber
  · rw [if_pos e, e, Function.update_self]
    rfl
  · rw [if_neg e, Function.update_of_ne e]
    rfl

/-! ## What a request lists -/

theorem lists_iff {up : Manifest} (hdigest : ∀ p ∈ up.parts, p.md5 = env.md5 (contentOf w p)) (bucket key : Str)
    {request : List (Nat × Str)} {pieces : List Bytes} :
    Vault.Lists env (piecesOf w up) request pieces ↔
      ∃ selected, selectParts bucket key up.parts request = .ok selected ∧ pieces = selected.map (contentOf w) := by
  unfold Vault.Lists
  induction request generalizing pieces with
  | nil =>
    rw [List.forall₂_nil_left_iff]
    constructor
    · intro h
      exact ⟨[], rfl, h⟩
    · intro h
      obtain ⟨selected, hselected, rfl⟩ := h
      cases hselected
      rfl
  | cons req request ih =>
    rw [List.forall₂_cons_left_iff]
    constructor
    · intro h
      obtain ⟨c, pieces, ⟨hc, htag⟩, hrest, rfl⟩ := h
      obtain ⟨selected, hselected, rfl⟩ := ih.mp hrest
      obtain ⟨p, hp, rfl⟩ := Option.map_eq_some_iff.mp hc
      refine ⟨p :: selected, ?_, rfl⟩
      rw [← hdigest p (List.mem_of_find?_eq_some hp)] at htag
      simp only [selectParts, hp, if_pos htag, hselected]
      rfl
    · intro h
      obtain ⟨selected, hselected, rfl⟩ := h
      simp only [selectParts] at hselected
      cases hp : up.parts.find? fun p => p.partNumber = req.1 with
      | none =>
        rw [hp] at hselected
        cases hselected
      | some p =>
        simp only [hp] at hselected
        split at hselected
        · rename_i htag
          cases hrest : selectParts bucket key up.parts request with
          | error e =>
            rw [hrest] at hselected
            cases hselected
          | ok ps =>
            rw [hrest] at hselected
            cases hselected
            refine ⟨contentOf w p, ps.map (contentOf w), ⟨?_, ?_⟩, ih.mpr ⟨ps, hrest, rfl⟩, rfl⟩
            · unfold piecesOf
              rw [hp]
              rfl
            · rw [htag, hdigest p (List.mem_of_find?_eq_some hp)]
        · cases hselected

/-- The parts that a request selects have the numbers it lists. -/
theorem selectParts_numbers {bucket key : Str} {stored : List PartRef} {request : List (Nat × Str)} {selected : List PartRef}
    (h : selectParts bucket key stored request = .ok selected) : selected.map (·.partNumber) = request.map (·.1) := by
  induction request generalizing selected with
  | nil =>
    cases h
    rfl
  | cons req request ih =>
    simp only [selectParts] at h
    split at h
    · cases h
    · rename_i p hp
      split at h
      · cases hr : selectParts bucket key stored request with
        | error e =>
          rw [hr] at h
          cases h
        | ok ps =>
          rw [hr] at h
          cases h
          have hn : p.partNumber = req.1 := by simpa using List.find?_some hp
          rw [List.map_cons, List.map_cons, ih hr, hn]
      · cases h

theorem partsSorted_ascending {n : Nat} {request : List (Nat × Str)} (h : partsSorted n request = true) :
    (∀ r ∈ request, n < r.1) ∧ (request.map (·.1)).Pairwise (· < ·) := by
  induction request generalizing n with
  | nil => exact ⟨fun r hr => absurd hr List.not_mem_nil, .nil⟩
  | cons req request ih =>
    simp only [partsSorted, Bool.and_eq_true, decide_eq_true_eq] at h
    obtain ⟨hlater, hrest⟩ := ih h.2
    refine ⟨fun r hr => ?_, List.pairwise_cons.mpr ⟨fun k hk => ?_, hrest⟩⟩
    · rcases List.mem_cons.mp hr with rfl | hr
      · exact h.1
      · have hlt := hlater r hr
        omega
    · obtain ⟨r, hr, rfl⟩ := List.mem_map.mp hk
      exact hlater r hr

/-- What is selected in order is no larger than all there is. -/
theorem selected_sum_le {bucket key : Str} {stored : List PartRef} {request : List (Nat × Str)} {selected : List PartRef}
    (hsorted : partsSorted 0 request = true) (h : selectParts bucket key stored request = .ok selected) :
    (selected.map (·.size)).sum ≤ (stored.map (·.size)).sum := by
  have hnodup : selected.Nodup := by
    have hnumbers : (selected.map (·.partNumber)).Nodup := by
      rw [selectParts_numbers h]
      exact (partsSorted_ascending hsorted).2.imp fun hlt => by omega
    exact hnumbers.of_map
  obtain ⟨l, hperm, hsub⟩ := hnodup.subperm (selectParts_subset h)
  rw [← (hperm.map (·.size)).sum_eq]
  exact (hsub.map _).sum_le_sum fun _ _ => Nat.zero_le _

/-! ## Uploads -/

/-- Where no version has the id, only an upload can go. -/
theorem Vault.remove_eq {bucket key id : Str} (h : ∀ v ∈ s.history bucket key, v.id ≠ id) :
    s.remove bucket key id = s.setUpload bucket key id none := by
  have hhistory : (fun b k => if b = bucket ∧ k = key then (s.history b k).forget id else s.history b k) = s.history := by
    funext b k
    split
    · rename_i e
      rw [e.1, e.2]
      exact List.filter_eq_self.mpr fun v hv => decide_eq_true (h v hv)
    · rfl
  unfold Vault.remove
  rw [hhistory]
  rfl

theorem Tidy.inProgress {gs : Nat → Ghost} (ht : Tidy env w gs) {k : ManifestKey} {m : Manifest} (hm : w.db.objects.get k.encode = some m)
    (hs : m.state ≠ .committed) : m.state = .inProgress := by
  obtain ⟨-, hrow⟩ := ht.row hm
  cases hst : m.state with
  | inProgress => rfl
  | committed => exact absurd hst hs
  | aborted => exact absurd hst hrow.settled

theorem uploadAt_eq {bucket key id : Str} {up : Manifest} :
    uploadAt w bucket key id = some up ↔ w.db.objects.get (ManifestKey.mk bucket key id).encode = some up ∧ up.state ≠ .committed := by
  unfold uploadAt
  rw [Option.filter_eq_some_iff, decide_eq_true_eq]

section
variable (hs : Shows env w s)
include hs

/-- What the vault has of an upload. -/
theorem Shows.upload {bucket key id : Str} {up : Manifest} (hup : w.db.objects.get (ManifestKey.mk bucket key id).encode = some up)
    (hstate : up.state ≠ .committed) : s.uploads bucket key id = some (piecesOf w up) := by
  rw [hs.uploads, uploadAt_eq.mpr ⟨hup, hstate⟩]
  rfl

/-- The upload can be completed in the vault when its row can. -/
theorem Shows.completes_iff {g : Ghost} {gr : Ground} (hsteady : Steady env w g gr) (hstocked : Stocked env w g gr)
    {bucket key id : Str} {body : Bytes} {pieces : List Bytes} : s.Completes env bucket key id body pieces ↔
      ∃ up selected, Completable env w.db bucket key id body up selected ∧ pieces = selected.map (contentOf w) := by
  constructor
  · intro h
    obtain ⟨u, request, hu, hrequest, hne, hsorted, hlists⟩ := h
    rw [hs.uploads, Option.map_eq_some_iff] at hu
    obtain ⟨up, hup, rfl⟩ := hu
    obtain ⟨hrow, hstate⟩ := uploadAt_eq.mp hup
    have hmem := Table.mem_rows.mpr hrow
    obtain ⟨selected, hselected, rfl⟩ := (lists_iff (fun p hp => hs.digests _ hmem p hp) bucket key).mp hlists
    refine ⟨up, selected, ⟨hrow, hsteady.tidy.inProgress hrow hstate, ⟨request, hrequest, hne, hsorted, hselected⟩, ?_, ?_⟩, rfl⟩
    · intro hsize
      have hle := selected_sum_le hsorted hselected
      have hbound : (up.parts.map (·.size)).sum < 2 ^ 64 := hstocked.bounded _ hmem
      have hlarge : 2 ^ 64 ≤ (selected.map (·.size)).sum := hsize.2
      have hsum : (selected.map (·.size)).sum ≤ (up.parts.map (·.size)).sum := hle
      omega
    · intro p hp hmarked
      obtain ⟨e, he, hlive⟩ := hsteady.live_row hmem (selectParts_subset hselected p hp)
      obtain ⟨e', he', hgc⟩ := hmarked
      rw [he] at he'
      cases he'
      rw [hlive] at hgc
      cases hgc
  · intro h
    obtain ⟨up, selected, hc, rfl⟩ := h
    obtain ⟨request, hrequest, hne, hsorted, hselected⟩ := hc.request
    have hstate : up.state ≠ .committed := by
      rw [hc.inProgress]
      decide
    refine ⟨piecesOf w up, request, hs.upload hc.row hstate, hrequest, hne, hsorted, ?_⟩
    exact (lists_iff (fun p hp => hs.digests _ (Table.mem_rows.mpr hc.row) p hp) bucket key).mpr ⟨selected, hselected, rfl⟩

variable {g : Ghost} {gr : Ground}

/-- A part is stored in an upload. -/
theorem Shows.appends (hdb : WellKeyed w.db) (hsteady : Steady env w' g gr) {k : ManifestKey} {part : PartRef}
    (h : Appends env k part w w') {up : Manifest} (hup : w.db.objects.get k.encode = some up) (hstate : up.state ≠ .committed)
    (hdigest : part.md5 = env.md5 (contentOf w part)) :
    Shows env w' (s.setUpload k.bucket k.key k.versionId
      (some (Function.update (piecesOf w up) part.partNumber (some (contentOf w part))))) := by
  obtain ⟨effect, db', happend, hgc⟩ := h
  obtain ⟨m, parts, hm, -, -, rfl⟩ := append_ok happend
  rw [hup] at hm
  cases hm
  have hmem := Table.mem_rows.mpr hup
  have hkey := hdb.key_of_get hup
  have hasc := hs.ascending _ hmem hstate
  refine Shows.collected ?_ hgc hsteady
  rw [dropReplaced_parts]
  have hinsert : Shows env (w.storing (w.db.objects.insert k.encode (up.withParts (replacePart up.parts part) (env.now (w.clock + 1)))) parts)
      (s.setUpload up.key.bucket up.key.key up.key.versionId
        (some (piecesOf w (up.withParts (replacePart up.parts part) (env.now (w.clock + 1)))))) := by
    refine hs.insertUpload (m := up.withParts (replacePart up.parts part) (env.now (w.clock + 1))) hdb (hdb _ hmem).2 hstate ?_ rfl rfl
      (Nat.le_add_right ..) ⟨w.clock + 1, ?_, rfl⟩ (fun p hp => ?_) (hasc.replacePart part) fun old hold => ?_
    · rw [← hkey]
      rfl
    · exact Nat.lt_succ_self _
    · rcases mem_replacePart.mp hp with hp | rfl
      · exact hs.digests _ hmem p (List.mem_of_mem_eraseP hp)
      · exact hdigest
    · have hold' : w.db.objects.get k.encode = some old := by
        rw [← hkey]
        exact hold
      rw [hup] at hold'
      cases hold'
      exact hstate
  rw [piecesOf_withParts hasc, hkey] at hinsert
  exact hinsert

/-- An upload becomes the object of its parts. -/
theorem Shows.commits (henv : env.Sane) {gs : Nat → Ghost} (ht : Tidy env w gs) (hsteady : Steady env w' g gr)
    {bucket key id : Str} (hb : NulFree bucket) (hk : NulFree key) {up : Manifest} {selected : List PartRef}
    (hup : w.db.objects.get (ManifestKey.mk bucket key id).encode = some up) (hstate : up.state = .inProgress)
    (hselected : ∀ p ∈ selected, p ∈ up.parts) {n : Nat} (hold : ∀ r ∈ w.db.objects.rows, r.2.lastModified < env.now n)
    (hn : n < w.clock) (h : Commits env ⟨bucket, key, id⟩ (completedManifest bucket key up selected (env.now n)) w w') :
    Shows env w' ((s.write bucket key ⟨nullVersionId, some (selected.map (contentOf w)).flatten⟩).setUpload bucket key id none) := by
  obtain ⟨effect, db', hcomplete, hgc⟩ := h
  obtain ⟨-, parts, -, -, -, -, rfl⟩ := complete_ok hcomplete
  refine Shows.collected ?_ hgc hsteady
  have hmem := Table.mem_rows.mpr hup
  have hne : ∀ v ∈ (s.write bucket key ⟨nullVersionId, some (selected.map (contentOf w)).flatten⟩).history bucket key, v.id ≠ id := by
    have huncommitted : ∀ m, w.db.objects.get (ManifestKey.mk bucket key id).encode = some m → m.state ≠ .committed := by
      intro m hm
      rw [hup] at hm
      cases hm
      rw [hstate]
      decide
    have hkey := ht.wellKeyed.key_of_get hup
    have hnull := ((ht.row hup).2.upload hstate).1
    rw [hkey] at hnull
    intro v hv
    simp only [Vault.write, and_self, if_true, History.record_eq] at hv
    rcases List.mem_cons.mp hv with rfl | hv
    · exact fun e => hnull e.symm
    · exact hs.id_ne ht.wellKeyed huncommitted v (List.mem_of_mem_filter hv)
  have hwritten : Shows env (w.storing (w.db.objects.insert (ManifestKey.mk bucket key nullVersionId).encode
        (completedManifest bucket key up selected (env.now n))) w.db.parts)
      (s.write bucket key ⟨nullVersionId, some (selected.map (contentOf w)).flatten⟩) := by
    refine hs.insertVersion (m := completedManifest bucket key up selected (env.now n)) ht.wellKeyed rfl rfl rfl rfl
      (Nat.le_add_right ..) ⟨n, ?_, rfl⟩ hold (fun p hp => hs.digests _ hmem p (hselected p hp)) (ht.no_upload henv hb hk .off)
    exact Nat.lt_add_right 2 hn
  rw [← Vault.remove_eq hne]
  refine hwritten.erase (k := ⟨bucket, key, id⟩) ?_ rfl rfl rfl le_rfl
  exact ht.wellKeyed.insert (m := completedManifest bucket key up selected (env.now n)) ⟨hb, hk, null_clear⟩ rfl

end

end

end S3lite
