/-
  S3lite.Session.Saturated — an upload beside many objects of its part's content.

  A count that is saturated counts neither the upload's reference nor that of the object it becomes.
  So the file goes with as many deletions as were counted, and the completion succeeds without it.
  - `Beside`: the objects, and the upload of one part.
  - `beside_uploaded`, `beside_deleted`: the part is uploaded, and objects are deleted.
  - `beside_completed`: what the completion leaves.
-/
import S3lite.Vault.Granted

namespace S3lite

open Handler

section
variable {env : Env} {bucket other id : Str} {key : Nat → Str} {body : Bytes} {n d : Nat} {w w' : World}

/-- The name is none of the objects'. -/
theorem Names.beside (hnames : Names bucket key) (hother : ∀ i, key i ≠ other) (v : Str) (i : Nat) :
    (copyKey bucket key i).encode ≠ (ManifestKey.mk bucket other v).encode := by
  intro he
  have hkey := eq_of_encode (k := copyKey bucket key i) ⟨hnames.bucket, hnames.keys i, null_clear⟩ he.symm
  exact hother i (congrArg ManifestKey.key hkey).symm

/-- The objects stay, with their count and their file. -/
theorem Filled.same (h : Filled env bucket key body n d w) (hbuckets : w'.db.buckets = w.db.buckets)
    (hrows : ∀ i, w'.db.objects.get (copyKey bucket key i).encode = w.db.objects.get (copyKey bucket key i).encode)
    (hcount : ∀ k, CountIs w.db.parts (env.blake3 body) k → d < min n u32Max → CountIs w'.db.parts (env.blake3 body) k)
    (hfile : (w.files.get (env.blake3 body)).isSome → (w'.files.get (env.blake3 body)).isSome) (hd : d < min n u32Max) :
    Filled env bucket key body n d w' := by
  obtain ⟨hcounted, hsome⟩ := h.counted hd
  refine ⟨?_, fun i hi hn => ?_, fun i hi => ?_, fun _ => ⟨hcount _ hcounted hd, hfile hsome⟩, fun hmax => ?_⟩
  · rw [hbuckets]
    exact h.configured
  · rw [hrows]
    exact h.rows i hi hn
  · rw [hrows]
    exact h.fresh i hi
  · omega

/-- A put of one of the objects leaves the other key. -/
theorem put_other (hnames : Names bucket key) (hother : ∀ i, key i ≠ other) (h : Filled env bucket key body n 0 w) (v : Str) :
    (served env w [putCopy bucket key body n]).db.objects.get (ManifestKey.mk bucket other v).encode =
      w.db.objects.get (ManifestKey.mk bucket other v).encode := by
  obtain ⟨cfg, hcfg, hoff, -⟩ := h.configured
  obtain ⟨resp, hresp⟩ := filled_put_succeeds h
  obtain ⟨w', hrun⟩ : ∃ w', run env (putObject env bucket (key n) [] body) w = (.ok resp, w') := ⟨_, Prod.ext hresp rfl⟩
  have hserved : served env w [putCopy bucket key body n] = w' := congrArg Prod.snd hrun
  obtain ⟨m, w1, hready, hputs⟩ := (@ensures_putObject env w bucket (key n) [] body).ok hrun
  obtain ⟨cfg', headerLock, lock, tags, checksum, t, hcfg', -, -, -, -, -, hm⟩ := hready.manifest
  rw [hcfg] at hcfg'
  cases hcfg'
  have hkey : m.key = copyKey bucket key n := by
    rw [hm, hoff]
    rfl
  rw [hserved, hputs.objects.1, hready.db, hkey]
  exact Table.get_insert_ne _ _ (hnames.beside hother v n).symm

theorem copies_other (hnames : Names bucket key) (hother : ∀ i, key i ≠ other) (n : Nat) (v : Str) :
    (served env .empty (copies bucket key body n 0)).db.objects.get (ManifestKey.mk bucket other v).encode = none := by
  induction n with
  | zero => rfl
  | succ n ih =>
    have hsplit : copies bucket key body (n + 1) 0 = copies bucket key body n 0 ++ [putCopy bucket key body n] := by
      simp [copies, List.range_succ]
    rw [hsplit, served_append]
    exact (put_other hnames hother (filled_copies hnames (Nat.zero_le n)) v).trans ih

/-- A manifest without parts frees and counts nothing. -/
theorem Puts.empty {m : Manifest} (h : Puts env m w w') (hparts : m.parts = []) (hnew : w.db.objects.get m.key.encode = none) (x : Hash) :
    w'.db.parts.get x = w.db.parts.get x ∧ w'.files.get x = w.files.get x := by
  obtain ⟨effect, db', hput, hgc⟩ := h
  obtain ⟨parts, hinc, rfl, rfl⟩ := put_ok hput
  rw [hparts] at hinc
  cases hinc
  rw [hnew] at hgc
  exact hgc.kept x fun hm => absurd hm List.not_mem_nil

/-- The objects, of which the first `d` were deleted, and an upload in progress of one part of their content. -/
structure Beside (env : Env) (bucket : Str) (key : Nat → Str) (other id : Str) (body : Bytes) (n d : Nat) (w : World) : Prop where
  filled : Filled env bucket key body n d w
  upload : ∃ m, w.db.objects.get (ManifestKey.mk bucket other id).encode = some m ∧ m.state = .inProgress ∧
    m.parts = [partRef 1 (writeResult env body)]

variable (hnames : Names bucket key) (hother : ∀ i, key i ≠ other)
include hnames hother

/-- The upload is created, and its part uploaded, where the count is saturated. -/
theorem beside_uploaded (hn : u32Max ≤ n) (h : Filled env bucket key body n 0 w)
    (hnew : w.db.objects.get (ManifestKey.mk bucket other (env.uuid w.uuids)).encode = none) :
    (∃ resp, (run env (createMultipartUpload bucket other []) w).1 = .ok resp ∧
      resp.body = .xml (.initiateMultipartUpload bucket other (env.uuid w.uuids))) ∧
    Beside env bucket key other (env.uuid w.uuids) body n 0 (served env w
      [.createMultipartUpload bucket other [], .uploadPart bucket other (env.uuid w.uuids) 1 [] body]) := by
  obtain ⟨cfg, hcfg, -⟩ := h.configured
  have hmax : min n u32Max = u32Max := Nat.min_eq_right hn
  have hpos : 0 < min n u32Max := by
    rw [hmax]
    decide
  -- the upload
  have hcreate : Ensures env (createMultipartUpload bucket other []) w (fun resp w' =>
      resp.body = .xml (.initiateMultipartUpload bucket other (env.uuid w.uuids)) ∧ ∃ n w1, Ready w .enabled n w1 ∧
        Puts env (uploadManifest ⟨bucket, other, env.uuid w.uuids⟩ [] (env.now n)) w1 w') fun _ _ => False := by
    refine (ensures_createMultipartUpload bucket other []).mono (fun resp w' hok => ⟨hok.1, hok.2.2⟩) fun _ _ hrefused => ?_
    rw [hrefused.2] at hcfg
    cases hcfg
  obtain ⟨resp, w1, hrun, hbody, t, w0, hready, hputs⟩ := hcreate.succeeds
  refine ⟨⟨resp, by rw [hrun], hbody⟩, ?_⟩
  have hobjects := hputs.objects
  rw [hready.db] at hobjects
  have hempty := hputs.empty rfl (by rw [hready.db]; exact hnew)
  rw [hready.db, hready.files] at hempty
  have hfilled : Filled env bucket key body n 0 w1 := by
    refine h.same hobjects.2 (fun i => ?_) (fun k hk _ => ?_) (fun hsome => ?_) hpos
    · rw [hobjects.1]
      exact Table.get_insert_ne _ _ (hnames.beside hother _ i)
    · obtain ⟨e, he, hrest⟩ := hk
      exact ⟨e, (hempty _).1.trans he, hrest⟩
    · rw [(hempty _).2]
      exact hsome
  have hrow : w1.db.objects.get (ManifestKey.mk bucket other (env.uuid w.uuids)).encode =
      some (uploadManifest ⟨bucket, other, env.uuid w.uuids⟩ [] (env.now t)) := by
    rw [hobjects.1]
    exact Table.get_insert_self ..
  -- its part
  have hserved : served env w [.createMultipartUpload bucket other [], .uploadPart bucket other (env.uuid w.uuids) 1 [] body] =
      (run env (uploadPart env bucket other (env.uuid w.uuids) 1 [] body) w1).2 := by
    show (run env (uploadPart env bucket other (env.uuid w.uuids) 1 [] body) (run env (createMultipartUpload bucket other []) w).2).2 = _
    rw [hrun]
  rw [hserved]
  have happended : Ensures env (uploadPart env bucket other (env.uuid w.uuids) 1 [] body) w1 (fun _ w' =>
      Appends env ⟨bucket, other, env.uuid w.uuids⟩ (partRef 1 (writeResult env body)) { w1 with files := (writePart env w1.files body).2 } w')
      fun _ _ => False := by
    unfold uploadPart
    simp only [ensures_bind, ensures_ensure, ensures_ofExcept, ensures_op (o := .writeBytes body), ensures_ok]
    refine ⟨fun _ => ⟨fun expected he => ⟨fun _ => ?_, fun hmd5 => ?_⟩, fun e he => by cases he⟩, fun hnumber => hnumber (by decide)⟩
    · simp only [ensures_op, ensures_mapErr]
      constructor
      · intro effect heffect
        have happend := commit_ok_inv heffect
        exact (ensures_gcFreedParts effect.freedParts).mono (fun _ w' hgc => ⟨effect, _, happend, hgc⟩) fun _ _ h => h
      · intro e herror
        rcases append_error_iff.mp ⟨e, (commit_error_inv herror).1⟩ with hnone | hmarked
        · have hnone : w1.db.objects.get (ManifestKey.mk bucket other (env.uuid w.uuids)).encode = none := hnone
          rw [hrow] at hnone
          cases hnone
        · exact hfilled.unmarked hmarked
    · cases he
      exact hmd5 rfl
  obtain ⟨resp', w2, hrun', effect, db', happend, hgc⟩ := happended.succeeds
  rw [hrun']
  obtain ⟨m, parts, hm, hinc, rfl, rfl⟩ := append_ok happend
  rw [show ({ w1 with files := (writePart env w1.files body).2 } : World).db.objects.get
    (ManifestKey.mk bucket other (env.uuid w.uuids)).encode = _ from hrow] at hm
  cases hm
  have hkept := hgc.kept (env.blake3 body) fun hm => absurd hm List.not_mem_nil
  obtain ⟨e, hparts, hlive, hcount, -⟩ := inc_ok hinc
  subst hparts
  have hcounted : refcount w1.db.parts (env.blake3 body) = u32Max := (hfilled.counted hpos).1.refcount.trans hmax
  have hrefcount : e.refcount = u32Max := by
    rw [hcount]
    show min (refcount w1.db.parts (env.blake3 body) + 1) u32Max = u32Max
    rw [hcounted]
    omega
  have hrow' : w2.db.objects.get (ManifestKey.mk bucket other (env.uuid w.uuids)).encode =
      some ((uploadManifest ⟨bucket, other, env.uuid w.uuids⟩ [] (env.now t)).withParts [partRef 1 (writeResult env body)]
        (env.now (w1.clock + 1))) := by
    rw [hgc.objects]
    exact Table.get_insert_self ..
  refine ⟨hfilled.same hgc.buckets (fun i => ?_) (fun k hk _ => ⟨e, ?_, hlive, ?_⟩) (fun _ => ?_) hpos, _, hrow', rfl, rfl⟩
  · rw [hgc.objects]
    exact Table.get_insert_ne _ _ (hnames.beside hother _ i)
  · exact hkept.1.trans (Table.get_insert_self ..)
  · rw [hrefcount, ← hcounted, hk.refcount]
  · rw [hkept.2]
    exact writePart_isSome env w1.files body

/-- One object more is deleted. -/
theorem beside_delete (h : Beside env bucket key other id body n d w) (hd : d < n) :
    Beside env bucket key other id body n (d + 1) (served env w [deleteCopy bucket key d]) := by
  have hfilled := filled_delete hnames h.filled hd
  obtain ⟨cfg, hcfg, hoff, -⟩ := h.filled.configured
  obtain ⟨m, hm, -, -, -, hunlocked, -⟩ := h.filled.rows d le_rfl hd
  obtain ⟨resp, w', hrun, w1, removed, hdb, -, hremoves⟩ := (@ensures_deleteUnlocked env _ _ _ _ hcfg hoff _ hm hunlocked).succeeds
  have hserved : served env w [deleteCopy bucket key d] = w' := congrArg Prod.snd hrun
  rw [hserved] at hfilled ⊢
  obtain ⟨hobjects, -⟩ := hremoves.objects
  obtain ⟨up, hup, hrest⟩ := h.upload
  refine ⟨hfilled, up, ?_, hrest⟩
  rw [hobjects, hdb]
  exact (Table.get_erase_ne _ (hnames.beside hother id d).symm).trans hup

theorem beside_deleted (h : Beside env bucket key other id body n 0 w) (hd : d ≤ n) :
    Beside env bucket key other id body n d (served env w ((List.range d).map (deleteCopy bucket key))) := by
  induction d with
  | zero => exact h
  | succ d ih =>
    rw [List.range_succ, List.map_append, served_append]
    exact beside_delete hnames hother (ih (by omega)) (by omega)

omit hnames hother in
/-- As many are deleted as were counted, and the upload is completed with its part. -/
theorem beside_completed (hd : u32Max ≤ d) (h : Beside env bucket key other id body n d w) (hid : id ≠ nullVersionId) {list : Bytes} {tag : Str}
    (hlist : env.xmlCompleteMultipartUpload list = .ok [(1, tag)]) (htag : trim tag = etagOfMd5 (env.md5 body)) (hsize : body.length < 2 ^ 64) :
    ∃ resp w', run env (completeMultipartUpload env bucket other id list) w = (.ok resp, w') ∧
      ∃ m, w'.db.objects.get (ManifestKey.mk bucket other nullVersionId).encode = some m ∧ m.state = .committed ∧
        m.parts = [partRef 1 (writeResult env body)] ∧ w'.files.get (env.blake3 body) = none := by
  obtain ⟨up, hup, hstate, hparts⟩ := h.upload
  obtain ⟨hnoRow, hnoFile⟩ := h.filled.gone (by omega)
  have hselected : selectParts bucket other up.parts [(1, tag)] = .ok [partRef 1 (writeResult env body)] := by
    have hmd5 : trim tag = etagOfMd5 (partRef 1 (writeResult env body)).md5 := htag
    have hfind : (List.find? (fun p => decide (p.partNumber = 1)) [partRef 1 (writeResult env body)]) = some (partRef 1 (writeResult env body)) := rfl
    rw [hparts]
    simp only [selectParts, hfind, if_pos hmd5]
    rfl
  have hcompletable : Completable env w.db bucket other id list up [partRef 1 (writeResult env body)] := by
    refine ⟨hup, hstate, ⟨_, hlist, List.cons_ne_nil _ _, rfl, hselected⟩, fun hover => ?_, fun p hp hmarked => ?_⟩
    · have hlarge : 2 ^ 64 ≤ body.length + 0 := hover.2
      omega
    · rw [List.mem_singleton.mp hp] at hmarked
      exact h.filled.unmarked hmarked
  have hdone : Ensures env (completeMultipartUpload env bucket other id list) w (fun _ w' => ∃ up selected n w1,
      Completable env w.db bucket other id list up selected ∧ Later w w1 ∧
        Commits env ⟨bucket, other, id⟩ (completedManifest bucket other up selected (env.now n)) w1 w') fun _ _ => False := by
    refine (ensures_completeMultipartUpload bucket other id list).mono (fun _ w' hok => ?_) fun _ _ hrefused => hrefused.2.2 _ _ hcompletable
    obtain ⟨up, selected, n, w1, hc, h1, -, -, hcommits⟩ := hok
    exact ⟨up, selected, n, w1, hc, h1, hcommits⟩
  obtain ⟨resp, w', hrun, up', selected, n, w1, hc, h1, hcommits⟩ := hdone.succeeds
  have hup' := hc.row
  rw [hup] at hup'
  cases hup'
  obtain ⟨request, hrequest, -, -, hselected'⟩ := hc.request
  rw [hlist] at hrequest
  cases hrequest
  rw [hselected] at hselected'
  cases hselected'
  have hne : (ManifestKey.mk bucket other nullVersionId).encode ≠ (ManifestKey.mk bucket other id).encode := by
    intro he
    have hrest := (List.cons.inj (List.append_cancel_left he)).2
    exact hid (List.cons.inj (List.append_cancel_left hrest)).2.symm
  have hrow : w'.db.objects.get (ManifestKey.mk bucket other nullVersionId).encode =
      some (completedManifest bucket other up [partRef 1 (writeResult env body)] (env.now n)) := by
    rw [(Commits.objects hcommits).1, Table.get_erase_ne _ hne]
    exact Table.get_insert_self ..
  refine ⟨resp, w', hrun, _, hrow, rfl, rfl, ?_⟩
  obtain ⟨effect, db', -, hgc⟩ := hcommits
  by_cases hgone : env.blake3 body ∈ effect.freedParts ∧ Orphan db'.parts (env.blake3 body)
  · exact (hgc.gone _ hgone.1 hgone.2).2
  · have hfile := (hgc.kept (env.blake3 body) fun hm ho => hgone ⟨hm, ho⟩).2
    rw [hfile]
    show w1.files.get (env.blake3 body) = none
    rw [h1.files]
    exact hnoFile

end

end S3lite
