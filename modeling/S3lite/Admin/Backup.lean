/-
  S3lite.Admin.Backup — maintenance of a data directory while no server runs (src/admin.rs).

  A data directory is `meta.redb` and the folder `parts`, which holds each part under the first
  two bytes of its hash. The order in which a `HashSet` of hashes is walked is a parameter. I/O
  fails only where a path leads to something else than it should; what an error leaves behind in
  the target is not modelled. The `u32` counters wrap.

  - `Holds f part`: the folder holds exactly these parts.
  - `backup_ok`: a backup holds the parts that the listed manifests reference, and reports those
    that have no file.
  - `copyTree_ok`, `restore_ok`: a restored folder holds what the snapshot holds.
-/
import S3lite.Base.Folder
import S3lite.S3.Maintenance
import S3lite.Safety.Pool

namespace S3lite

/-- A data directory; `parts` may be missing. -/
structure DataDir where
  metaRedb : Option Db
  parts : Option (Folder Str Bytes)

def DataDir.empty : DataDir := ⟨none, none⟩

inductive AdminError where
  /-- The path within the data directory. -/
  | io (path : List Str)
  | missingSnapshotFile

def ioErr {α : Type} (path : List Str) (r : Option α) : Except AdminError α :=
  match r with
  | some a => .ok a
  | none => .error (.io path)

structure BackupReport where
  buckets : Nat
  manifests : Nat
  partsCopied : Nat
  partsMissing : List Str

structure ScanReport where
  partsChecked : Nat
  partsPassed : Nat
  corrupted : List Str

/-- `PartStore::path_for`, below `parts`. -/
def pathFor (hash : Hash) : List Str :=
  let hex := hexEncode hash.toList
  [hex.take 2, (hex.drop 2).take 2, hex]

/-- The folders of the path. -/
def parentOf (hash : Hash) : List Str :=
  let hex := hexEncode hash.toList
  [hex.take 2, (hex.drop 2).take 2]

/-- The manifests of all listed buckets. -/
def allManifests (db : Db) : List Manifest := (handleListBuckets db).flatMap fun b => handleListAllManifestsInBucket db b.1

/-- The hashes they reference, as often as they do. -/
def referenced (db : Db) : List Hash := (allManifests db).flatMap fun m => m.parts.map (·.hash)

/-- The loop of `backup` over the referenced hashes. -/
def copyParts (src : Folder Str Bytes) : List Hash → Folder Str Bytes → BackupReport → Except AdminError (BackupReport × Folder Str Bytes)
  | [], dst, report => .ok (report, dst)
  | hash :: hashes, dst, report => do
    let dst ← ioErr (str "parts" :: parentOf hash) (dst.make (parentOf hash))
    match src.find (pathFor hash) with
    | .file data =>
      let dst ← ioErr (str "parts" :: pathFor hash) (dst.write (pathFor hash) data)
      copyParts src hashes dst { report with partsCopied := countUp report.partsCopied }
    | .nothing =>
      copyParts src hashes dst { report with partsMissing := report.partsMissing ++ [hexEncode hash.toList] }
    | .obstructed => .error (.io (str "parts" :: pathFor hash))

/-- The report, the source, where a missing `meta.redb` was created, and the backup. `order` is
    how the set of referenced hashes is walked. -/
def backup (order : List Hash → List Hash) (src dst : DataDir) : Except AdminError (BackupReport × DataDir × DataDir) := do
  let db := src.metaRedb.getD .empty
  let report : BackupReport := ⟨(handleListBuckets db).length % 2 ^ 32, (allManifests db).length % 2 ^ 32, 0, []⟩
  let r ← copyParts (src.parts.getD .empty) (order (referenced db)) (dst.parts.getD .empty) report
  .ok (r.1, { src with metaRedb := some db }, ⟨some db, some r.2⟩)

/-- Everything in the one folder is copied into the other; `path` is where they are. -/
def copyTree (path : List Str) : Folder Str Bytes → Folder Str Bytes → Nat → Except AdminError (Folder Str Bytes × Nat)
  | .empty, dst, count => .ok (dst, count)
  | .folder name sub rest, dst, count => do
    let r ← ioErr (path ++ [name]) (dst.enter name)
    let r ← copyTree (path ++ [name]) sub r count
    copyTree path rest (dst.set name (.inr r.1)) r.2
  | .file name data rest, dst, count => do
    let dst ← ioErr (path ++ [name]) (dst.write [name] data)
    copyTree path rest dst (countUp count)

/-- How many parts were copied, and the restored directory. -/
def restore (snapshot target : DataDir) : Except AdminError (Nat × DataDir) :=
  match snapshot.metaRedb, target.metaRedb with
  | none, _ => .error .missingSnapshotFile
  | some _, some _ => .error (.io [str "meta.redb"])
  | some db, none => do
    let dst := target.parts.getD .empty
    match snapshot.parts with
    | some src =>
      let r ← copyTree [str "parts"] src dst 0
      .ok (r.2, ⟨some db, some r.1⟩)
    | none => .ok (0, ⟨some db, some dst⟩)

def walkAndVerify (env : Env) : Folder Str Bytes → ScanReport → ScanReport
  | .empty, report => report
  | .folder _ sub rest, report => walkAndVerify env rest (walkAndVerify env sub report)
  | .file filename bytes rest, report =>
    let checked := { report with partsChecked := countUp report.partsChecked }
    walkAndVerify env rest
      (if hexEncode (env.blake3 bytes).toList = filename then { checked with partsPassed := countUp report.partsPassed }
       else { checked with corrupted := report.corrupted ++ [filename] })

def scanRebuild (env : Env) (dataDir : DataDir) : ScanReport :=
  match dataDir.parts with
  | some parts => walkAndVerify env parts ⟨0, 0, []⟩
  | none => ⟨0, 0, []⟩

/-! ## Paths -/

theorem hexEncode_hash {a b : Hash} (h : hexEncode a.toList = hexEncode b.toList) : a = b :=
  Vector.toList_inj.mp (hexEncode_injective h)

theorem pathFor_injective {a b : Hash} (h : pathFor a = pathFor b) : a = b := by
  obtain ⟨-, h⟩ := List.cons.inj h
  obtain ⟨-, h⟩ := List.cons.inj h
  exact hexEncode_hash (List.cons.inj h).1

/-! ## The parts in a folder -/

/-- The folder holds these parts and nothing else. -/
structure Holds (f : Folder Str Bytes) (part : Hash → Option Bytes) : Prop where
  leveled : f.Leveled 2
  distinct : f.Distinct
  file : ∀ hash, f.read (pathFor hash) = part hash
  named : ∀ path data, f.read path = some data → ∃ hash, path = pathFor hash

section
variable {f : Folder Str Bytes} {part : Hash → Option Bytes}

theorem Holds.empty : Holds .empty fun _ => none :=
  ⟨.empty 2, trivial, fun hash => Folder.read_empty (pathFor hash), fun path data h => by
    rw [Folder.read_empty] at h
    cases h⟩

theorem Holds.congr {part' : Hash → Option Bytes} (h : Holds f part) (heq : ∀ hash, part' hash = part hash) : Holds f part' :=
  (funext heq : part' = part) ▸ h

/-- The folders of a path are made in any case. -/
theorem Holds.make (h : Holds f part) (hash : Hash) : ∃ f', f.make (parentOf hash) = some f' ∧ Holds f' part := by
  obtain ⟨f', hmake, hlevel⟩ := Folder.Leveled.make h.leveled (show (parentOf hash).length = 2 from rfl)
  refine ⟨f', hmake, hlevel, Folder.Distinct.make h.distinct hmake, fun hash' => ?_, fun path data hread => ?_⟩
  · rw [Folder.read_make hmake, h.file]
  · rw [Folder.read_make hmake] at hread
    exact h.named path data hread

theorem Holds.write (h : Holds f part) (hash : Hash) (data : Bytes) :
    ∃ f', f.write (pathFor hash) data = some f' ∧ Holds f' fun x => if x = hash then some data else part x := by
  obtain ⟨f', hwrite, hlevel⟩ := Folder.Leveled.write h.leveled (show (pathFor hash).length = 3 from rfl) data
  refine ⟨f', hwrite, hlevel, Folder.Distinct.write h.distinct hwrite, fun x => ?_, fun path d hread => ?_⟩
  · rw [Folder.read_write hwrite, h.file]
    by_cases hx : x = hash
    · rw [if_pos (congrArg pathFor hx), if_pos hx]
    · rw [if_neg fun e => hx (pathFor_injective e), if_neg hx]
  · rw [Folder.read_write hwrite] at hread
    by_cases hp : path = pathFor hash
    · exact ⟨hash, hp⟩
    · rw [if_neg hp] at hread
      exact h.named path d hread

/-- Any parts can be held. -/
theorem exists_holds (rows : List (Hash × Bytes)) : ∃ f, Holds f fun x => (rows.find? fun r => r.1 = x).map (·.2) := by
  induction rows with
  | nil => exact ⟨.empty, .empty⟩
  | cons r rows ih =>
    obtain ⟨f, hf⟩ := ih
    obtain ⟨f', -, hf'⟩ := hf.write r.1 r.2
    refine ⟨f', hf'.congr fun x => ?_⟩
    by_cases hx : r.1 = x
    · simp [hx]
    · simp [hx, Ne.symm hx]

theorem Holds.mem_files (h : Holds f part) {r : List Str × Bytes} : r ∈ f.files ↔ ∃ x, r.1 = pathFor x ∧ part x = some r.2 := by
  rw [Folder.mem_files h.distinct]
  constructor
  · intro hread
    obtain ⟨x, hx⟩ := h.named _ _ hread
    exact ⟨x, hx, by rw [← h.file, ← hx, hread]⟩
  · intro hr
    obtain ⟨x, hx, hpart⟩ := hr
    rw [hx, h.file, hpart]

end

/-! ## Backup -/

theorem countUp_add (n k : Nat) : (countUp n + k) % 2 ^ 32 = (n + (k + 1)) % 2 ^ 32 := by
  unfold countUp
  omega

section
variable {src dst : Folder Str Bytes} {part done : Hash → Option Bytes}

/-- What the loop has in the end: the parts that have a file, over what was there. -/
theorem copyParts_ok (hsrc : Holds src part) (hdst : Holds dst done) (hashes : List Hash) (report : BackupReport)
    (hcount : report.partsCopied < 2 ^ 32) :
    ∃ report' dst', copyParts src hashes dst report = .ok (report', dst') ∧
      report'.partsCopied = (report.partsCopied + hashes.countP fun x => (part x).isSome) % 2 ^ 32 ∧
      report'.partsMissing = report.partsMissing ++ (hashes.filter fun x => (part x).isNone).map (fun x => hexEncode x.toList) ∧
      Holds dst' fun x => if x ∈ hashes then (part x).or (done x) else done x := by
  induction hashes generalizing dst done report with
  | nil =>
    refine ⟨report, dst, rfl, (Nat.mod_eq_of_lt hcount).symm, (List.append_nil _).symm, hdst.congr fun x => ?_⟩
    rw [if_neg List.not_mem_nil]
  | cons hash hashes ih =>
    obtain ⟨made, hmake, hmade⟩ := hdst.make hash
    have hfind : src.find (pathFor hash) = (part hash).elim .nothing .file := by
      rw [hsrc.leveled.find_eq (show (pathFor hash).length = 3 from rfl), hsrc.file]
    rw [copyParts, hmake]
    simp only [ioErr, Bind.bind, Except.bind, hfind]
    cases hpart : part hash with
    | none =>
      obtain ⟨report', dst', hcopy, hcopied, hmissing, hholds⟩ :=
        ih hmade { report with partsMissing := report.partsMissing ++ [hexEncode hash.toList] } hcount
      refine ⟨report', dst', hcopy, ?_, ?_, hholds.congr fun x => ?_⟩
      · rw [hcopied, List.countP_cons_of_neg (by simp [hpart])]
      · rw [hmissing, List.filter_cons_of_pos (by simp [hpart]), List.map_cons, List.append_assoc, List.singleton_append]
      · by_cases hx : x = hash
        · subst hx
          simp [hpart]
        · simp [hx]
    | some data =>
      obtain ⟨written, hwrite, hwritten⟩ := hmade.write hash data
      simp only [Option.elim_some, hwrite]
      obtain ⟨report', dst', hcopy, hcopied, hmissing, hholds⟩ :=
        ih hwritten { report with partsCopied := countUp report.partsCopied } (Nat.mod_lt _ (by decide))
      refine ⟨report', dst', hcopy, ?_, ?_, hholds.congr fun x => ?_⟩
      · rw [hcopied, List.countP_cons_of_pos (by simp [hpart]), countUp_add]
      · rw [hmissing, List.filter_cons_of_neg (by simp [hpart])]
      · by_cases hx : x = hash
        · subst hx
          simp [hpart]
        · simp [hx]

/-- A backup into an empty directory. -/
theorem backup_ok {order : List Hash → List Hash} (horder : ∀ l, (order l).Nodup ∧ ∀ x, x ∈ order l ↔ x ∈ l) {db : Db}
    (hsrc : Holds src part) :
    ∃ report dst, backup order ⟨some db, some src⟩ .empty = .ok (report, ⟨some db, some src⟩, ⟨some db, some dst⟩) ∧
      (∀ name, name ∈ report.partsMissing ↔ ∃ x ∈ referenced db, part x = none ∧ name = hexEncode x.toList) ∧
      Holds dst fun x => if x ∈ referenced db then part x else none := by
  obtain ⟨report, dst, hcopy, -, hmissing, hholds⟩ := copyParts_ok hsrc .empty (order (referenced db))
    ⟨(handleListBuckets db).length % 2 ^ 32, (allManifests db).length % 2 ^ 32, 0, []⟩ (Nat.two_pow_pos 32)
  have hmem := (horder (referenced db)).2
  refine ⟨report, dst, ?_, fun name => ?_, hholds.congr fun x => ?_⟩
  · simp only [backup, DataDir.empty, Option.getD_some, Option.getD_none, Bind.bind, Except.bind, hcopy]
  · rw [hmissing, List.nil_append, List.mem_map]
    constructor
    · intro h
      obtain ⟨x, hx, he⟩ := h
      obtain ⟨hx, hnone⟩ := List.mem_filter.mp hx
      exact ⟨x, (hmem x).mp hx, Option.isNone_iff_eq_none.mp hnone, he.symm⟩
    · intro h
      obtain ⟨x, hx, hnone, he⟩ := h
      exact ⟨x, List.mem_filter.mpr ⟨(hmem x).mpr hx, Option.isNone_iff_eq_none.mpr hnone⟩, he.symm⟩
  · rw [Option.or_none]
    exact if_congr (hmem x).symm rfl rfl

end

/-! ## Restore -/

section
variable {src dst : Folder Str Bytes} {k : Nat}

theorem copyTree_ok (hsrc : src.Leveled k) (hdistinct : src.Distinct) (hdst : dst.Leveled k) (hdst' : dst.Distinct)
    (path : List Str) {count : Nat} (hcount : count < 2 ^ 32) :
    ∃ dst', copyTree path src dst count = .ok (dst', (count + src.files.length) % 2 ^ 32) ∧ dst'.Leveled k ∧ dst'.Distinct ∧
      ∀ p, dst'.read p = (src.read p).or (dst.read p) := by
  induction src generalizing dst k count path with
  | empty =>
    refine ⟨dst, ?_, hdst, hdst', fun p => by simp⟩
    rw [copyTree, Folder.files, List.length_nil, Nat.add_zero, Nat.mod_eq_of_lt hcount]
  | file name data rest ih =>
    obtain ⟨hname, hrest⟩ := hdistinct
    have hhead := Folder.Leveled.head (e := .inl data) (f := rest) (n := name) hsrc
    have htail := Folder.Leveled.tail (e := .inl data) (f := rest) (n := name) hsrc hname
    cases k with
    | succ k => cases hhead
    | zero =>
      obtain ⟨dst1, hwrite, hlevel⟩ := hdst.write (show [name].length = 1 from rfl) data
      obtain ⟨dst', hcopy, hlevel', hdistinct', hread⟩ := ih htail hrest hlevel (hdst'.write hwrite) path
        (show countUp count < 2 ^ 32 from Nat.mod_lt _ (Nat.two_pow_pos 32))
      refine ⟨dst', ?_, hlevel', hdistinct', fun p => ?_⟩
      · rw [Folder.files, List.length_cons, ← countUp_add, ← hcopy, copyTree, hwrite]
        rfl
      · rw [hread, Folder.read_write hwrite]
        cases p with
        | nil => simp [Folder.read]
        | cons m p =>
          by_cases hm : m = name
          · subst hm
            have hfile : (Folder.file m data rest).read (m :: p) = if p = [] then some data else none :=
              Folder.read_cons_file data rest m p
            rw [Folder.read_of_not_mem hname, hfile]
            by_cases hp : p = [] <;> simp [hp]
          · have hfile : (Folder.file name data rest).read (m :: p) = rest.read (m :: p) := Folder.read_cons_ne rest (.inl data) hm p
            rw [hfile, if_neg fun e => hm (List.cons.inj e).1]
  | folder name sub rest ihsub ih =>
    obtain ⟨hname, hsub, hrest⟩ := hdistinct
    have hhead := Folder.Leveled.head (e := .inr sub) (f := rest) (n := name) hsrc
    have htail := Folder.Leveled.tail (e := .inr sub) (f := rest) (n := name) hsrc hname
    cases k with
    | zero => cases hhead
    | succ k =>
      obtain ⟨into, henter, hinto⟩ := hdst.enters name
      obtain ⟨sub', hcopysub, hlevelsub, hdistinctsub, hreadsub⟩ :=
        ihsub hhead hsub hinto (hdst'.enters henter) (path ++ [name]) hcount
      obtain ⟨dst', hcopy, hlevel', hdistinct', hread⟩ := ih htail hrest (hdst.set_folder hlevelsub name)
        (hdst'.set (e := .inr sub') hdistinctsub name) path
        (show (count + sub.files.length) % 2 ^ 32 < 2 ^ 32 from Nat.mod_lt _ (Nat.two_pow_pos 32))
      refine ⟨dst', ?_, hlevel', hdistinct', fun p => ?_⟩
      · have hlen : ((count + sub.files.length) % 2 ^ 32 + rest.files.length) % 2 ^ 32 =
            (count + (Folder.folder name sub rest).files.length) % 2 ^ 32 := by
          rw [Folder.files, List.length_append, List.length_map]
          omega
        rw [← hlen, ← hcopy, copyTree, henter]
        show (copyTree (path ++ [name]) sub into count).bind _ = _
        rw [hcopysub]
        rfl
      · rw [hread]
        cases p with
        | nil => simp [Folder.read]
        | cons m p =>
          by_cases hm : m = name
          · subst hm
            have hfolder : (Folder.folder m sub rest).read (m :: p) = sub.read p := Folder.read_cons_folder sub rest m p
            rw [Folder.read_of_not_mem hname, hfolder, Folder.read_set_folder, hreadsub, Folder.read_of_enter henter]
            rfl
          · have hfolder : (Folder.folder name sub rest).read (m :: p) = rest.read (m :: p) :=
              Folder.read_cons_ne rest (.inr sub) hm p
            rw [hfolder, Folder.read_set_ne dst _ hm]

theorem restore_ok {part : Hash → Option Bytes} (hsrc : Holds src part) (db : Db) :
    ∃ dst, restore ⟨some db, some src⟩ .empty = .ok (src.files.length % 2 ^ 32, ⟨some db, some dst⟩) ∧ Holds dst part := by
  obtain ⟨dst, hcopy, hlevel, hdistinct, hread⟩ := copyTree_ok hsrc.leveled hsrc.distinct (.empty 2) trivial [str "parts"]
    (Nat.two_pow_pos 32)
  rw [Nat.zero_add] at hcopy
  have hread : ∀ p, dst.read p = src.read p := fun p => by rw [hread, Folder.read_empty, Option.or_none]
  refine ⟨dst, ?_, hlevel, hdistinct, fun hash => (hread _).trans (hsrc.file hash), fun p data hp => ?_⟩
  · simp only [restore, DataDir.empty, Option.getD_none, Bind.bind, Except.bind, hcopy]
  · exact hsrc.named p data ((hread p).symm.trans hp)

end

/-! ## Scan -/

/-- The name of a file whose bytes do not have the hash it is named by. -/
def mismatched (env : Env) (r : List Str × Bytes) : Option Str :=
  if hexEncode (env.blake3 r.2).toList = r.1.getLastD [] then none else some (r.1.getLastD [])

theorem mismatched_below (env : Env) (name : Str) {f : Folder Str Bytes} :
    (f.files.map fun r => (name :: r.1, r.2)).filterMap (mismatched env) = f.files.filterMap (mismatched env) := by
  rw [List.filterMap_map]
  refine List.filterMap_congr fun r hr => ?_
  obtain ⟨n, -, path, hpath⟩ := Folder.head_of_mem_files (show (r.1, r.2) ∈ f.files from hr)
  simp [mismatched, hpath]

theorem mismatched_sublist (env : Env) (l : List (List Str × Bytes)) :
    (l.filterMap (mismatched env)).Sublist (l.map fun r => r.1.getLastD []) := by
  induction l with
  | nil => exact .slnil
  | cons r l ih =>
    rw [List.map_cons]
    by_cases h : hexEncode (env.blake3 r.2).toList = r.1.getLastD []
    · have hnone : mismatched env r = none := if_pos h
      rw [List.filterMap_cons_none hnone]
      exact ih.cons _
    · have hsome : mismatched env r = some (r.1.getLastD []) := if_neg h
      rw [List.filterMap_cons_some hsome]
      exact ih.cons_cons _

theorem walkAndVerify_corrupted (env : Env) (f : Folder Str Bytes) (report : ScanReport) :
    (walkAndVerify env f report).corrupted = report.corrupted ++ f.files.filterMap (mismatched env) := by
  induction f generalizing report with
  | empty => exact (List.append_nil _).symm
  | file name data rest ih =>
    rw [walkAndVerify, ih, Folder.files]
    by_cases h : hexEncode (env.blake3 data).toList = name
    · have hnone : mismatched env ([name], data) = none := if_pos h
      rw [if_pos h, List.filterMap_cons_none hnone]
    · have hsome : mismatched env ([name], data) = some name := if_neg h
      rw [if_neg h, List.filterMap_cons_some hsome, List.append_assoc]
      rfl
  | folder name sub rest ihsub ih =>
    rw [walkAndVerify, ih, ihsub, Folder.files, List.filterMap_append, mismatched_below, List.append_assoc]

theorem walkAndVerify_counts (env : Env) (f : Folder Str Bytes) (report : ScanReport) (h : report.partsChecked < 2 ^ 32) :
    (walkAndVerify env f report).partsChecked = (report.partsChecked + f.files.length) % 2 ^ 32 := by
  induction f generalizing report with
  | empty => exact (Nat.mod_eq_of_lt h).symm
  | file name data rest ih =>
    have hchecked : countUp report.partsChecked < 2 ^ 32 := Nat.mod_lt _ (Nat.two_pow_pos 32)
    rw [walkAndVerify, ih, Folder.files, List.length_cons, ← countUp_add]
    · split <;> rfl
    · split <;> exact hchecked
  | folder name sub rest ihsub ih =>
    have hsub := ihsub report h
    rw [walkAndVerify, ih _ (hsub ▸ Nat.mod_lt _ (Nat.two_pow_pos 32)), hsub, Folder.files, List.length_append, List.length_map]
    omega

section
variable {env : Env} {f : Folder Str Bytes} {part : Hash → Option Bytes}

theorem scanRebuild_corrupted (db : Option Db) : (scanRebuild env ⟨db, some f⟩).corrupted = f.files.filterMap (mismatched env) :=
  (walkAndVerify_corrupted env f ⟨0, 0, []⟩).trans (List.nil_append _)

theorem mem_corrupted (h : Holds f part) (db : Option Db) {name : Str} : name ∈ (scanRebuild env ⟨db, some f⟩).corrupted ↔
    ∃ x data, part x = some data ∧ env.blake3 data ≠ x ∧ name = hexEncode x.toList := by
  rw [scanRebuild_corrupted, List.mem_filterMap]
  constructor
  · intro hname
    obtain ⟨r, hr, hbad⟩ := hname
    obtain ⟨x, hx, hpart⟩ := h.mem_files.mp hr
    unfold mismatched at hbad
    rw [hx] at hbad
    split at hbad
    · cases hbad
    · rename_i hne
      exact ⟨x, r.2, hpart, fun e => hne (congrArg (fun y : Hash => hexEncode y.toList) e), (Option.some.inj hbad).symm⟩
  · intro hname
    obtain ⟨x, data, hpart, hne, rfl⟩ := hname
    exact ⟨(pathFor x, data), h.mem_files.mpr ⟨x, rfl, hpart⟩, if_neg fun e => hne (hexEncode_hash e)⟩

/-- No two files of a folder of parts have one name. -/
theorem Holds.names_nodup (h : Holds f part) : (f.files.map fun r => r.1.getLastD []).Nodup := by
  refine List.Nodup.map_on (fun a ha b hb e => ?_) ((Folder.files_nodup h.distinct).of_map _)
  obtain ⟨x, hx, hax⟩ := h.mem_files.mp ha
  obtain ⟨y, hy, hby⟩ := h.mem_files.mp hb
  rw [hx, hy] at e
  obtain rfl := hexEncode_hash (show hexEncode x.toList = hexEncode y.toList from e)
  exact Prod.ext (hx.trans hy.symm) (Option.some.inj (hax.symm.trans hby))

/-- A scan counts every part and names, once each, those whose bytes do not have the hash they
    are stored under. -/
theorem scan_exact (h : Holds f part) (db : Option Db) :
    (scanRebuild env ⟨db, some f⟩).partsChecked = f.files.length % 2 ^ 32 ∧ (scanRebuild env ⟨db, some f⟩).corrupted.Nodup ∧
      ∀ name, name ∈ (scanRebuild env ⟨db, some f⟩).corrupted ↔
        ∃ x data, part x = some data ∧ env.blake3 data ≠ x ∧ name = hexEncode x.toList := by
  refine ⟨?_, ?_, fun name => mem_corrupted h db⟩
  · have hcount := walkAndVerify_counts env f ⟨0, 0, []⟩ (Nat.two_pow_pos 32)
    rwa [Nat.zero_add] at hcount
  · rw [scanRebuild_corrupted]
    exact h.names_nodup.sublist (mismatched_sublist env f.files)

end

/-- One of two parts is damaged. -/
theorem scan_exact_damaged : ∃ f : Folder Str Bytes, Holds f (fun x =>
      if x = sampleEnv.blake3 (str "b") then some (str "b") else if x = sampleEnv.blake3 (str "a") then some (str "x") else none) ∧
    (scanRebuild sampleEnv ⟨none, some f⟩).partsChecked = 2 ∧
      (scanRebuild sampleEnv ⟨none, some f⟩).corrupted = [hexEncode (sampleEnv.blake3 (str "a")).toList] := by
  have hne : sampleEnv.blake3 (str "b") ≠ sampleEnv.blake3 (str "a") := by decide
  have hdamaged : sampleEnv.blake3 (str "x") ≠ sampleEnv.blake3 (str "a") := by decide
  obtain ⟨f1, hwrite1, h1⟩ := Holds.empty.write (sampleEnv.blake3 (str "a")) (str "x")
  obtain ⟨f, hwrite, h⟩ := h1.write (sampleEnv.blake3 (str "b")) (str "b")
  have hlen : ((Folder.empty.write (pathFor (sampleEnv.blake3 (str "a"))) (str "x")).bind
      fun f => f.write (pathFor (sampleEnv.blake3 (str "b"))) (str "b")).map (fun f => f.files.length) = some 2 := by rfl
  rw [hwrite1, Option.bind_some, hwrite] at hlen
  obtain ⟨hchecked, hnodup, hmem⟩ := @scan_exact sampleEnv _ _ h none
  refine ⟨f, h, hchecked.trans (congrArg (· % 2 ^ 32) (Option.some.inj hlen)), ?_⟩
  refine List.perm_singleton.mp ((List.perm_ext_iff_of_nodup hnodup (List.nodup_singleton _)).mpr fun name => ?_)
  rw [hmem, List.mem_singleton]
  constructor
  · intro hname
    obtain ⟨x, data, hpart, hbad, he⟩ := hname
    split at hpart
    · rename_i hx
      exact absurd (by rw [hx, ← Option.some.inj hpart]) hbad
    · split at hpart
      · rename_i hx
        rw [he, hx]
      · cases hpart
  · intro hname
    exact ⟨_, str "x", by rw [if_neg hne.symm, if_pos rfl], hdamaged, hname⟩

end S3lite
