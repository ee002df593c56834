/-
  S3lite.Admin.RoundTrip — what can be read of a server, and of its backup once that is restored.

  - `reads_alike`: requests that read are answered alike by two servers of the same database which
    have the same files for its parts, whatever else they have and whenever they run.
  - `backup_round_trips`: so a backup of any server in which no count saturated, restored, has every
    manifest, every listing and every byte of it.
  - `a_saturated_count_loses_a_part`: of 2^32 objects of one content, and one deletion less.
-/
import S3lite.Admin.Restored
import S3lite.Safety.Saturation

namespace S3lite

open Handler

/-! ## Requests that read -/

/-- The operation reads the database or a part file. -/
def Op.views : Op → Bool
  | .readPart _ => true
  | op => op.looks

theorem looks_views : LooksAmong fun op => op.views = true := by
  intro op hop
  cases op with
  | metaOp op => exact hop
  | _ => cases hop

/-- Every request that reads is answered alike. -/
def ReadsAlike (env : Env) (w w' : World) : Prop :=
  ∀ r : Request, r.reading = true → (run env (r.handler env) w').1 = (run env (r.handler env) w).1

/-- The same database, and the same files of its parts. -/
structure SameParts (w w' : World) : Prop where
  db : w'.db = w.db
  files : ∀ slot m, w.db.objects.get slot = some m → ∀ p ∈ m.parts, w'.files.get p.hash = w.files.get p.hash

section
variable {env : Env} {w w' : World}

/-- A read of the database does not depend on the time. -/
theorem exec_looks {op : MetaOp} (h : op.reads = true) (hdb : w'.db = w.db) :
    (exec env (.metaOp op) w').1 = (exec env (.metaOp op) w).1 := by
  show (op.exec (env.now w'.clock) (env.now (w'.clock + 1)) w'.db).1 = (op.exec (env.now w.clock) (env.now (w.clock + 1)) w.db).1
  rw [hdb]
  cases op <;> first | rfl | cases h

/-- What a view leaves of the relation: nothing is written, and what was read is stored. -/
theorem SameParts.view {g : Ground} (h : SameParts w w') (hdb : WellKeyed w.db) {op : Op} (hop : op.views = true)
    (hread : ∀ m ∈ g.read, ∃ slot, w.db.objects.get slot = some m) (hopens : g.Opens op) :
    (exec env op w').1 = (exec env op w).1 ∧ SameParts (exec env op w).2 (exec env op w').2 ∧ (exec env op w).2.db = w.db ∧
      ∀ m ∈ (g.next op (exec env op w).1).read, ∃ slot, w.db.objects.get slot = some m := by
  cases op with
  | metaOp op =>
    have hreads : (Op.metaOp op).reads = true := hop
    obtain ⟨hsame, hfiles, -⟩ := @exec_reads env _ hreads w
    obtain ⟨hsame', hfiles', -⟩ := @exec_reads env _ hreads w'
    refine ⟨exec_looks hop h.db, ⟨by rw [hsame, hsame', h.db], fun slot m hm p hp => ?_⟩, hsame, fun m hm => ?_⟩
    · rw [hsame] at hm
      rw [hfiles, hfiles']
      exact h.files slot m hm p hp
    · rcases mem_read_next hdb hm with hm | hm
      · exact hread m hm
      · exact hm
  | readPart hash =>
    obtain ⟨m, hm, p, hp, rfl⟩ := hopens
    obtain ⟨slot, hslot⟩ := hread m hm
    exact ⟨h.files slot m hslot p hp, h, rfl, hread⟩
  | _ => cases hop

theorem reads_alike (hdb : WellKeyed w.db) (h : SameParts w w') : ReadsAlike env w w' := by
  intro r hr
  have hviews : Performs (fun op => op.views = true) (r.handler env) := reading_performs looks_views (fun _ => rfl) hr
  have hsourced : Keeps sourcing (r.handler env) .start fun _ _ => True := request_sourced r
  have hfollows := Prog.Follows.prod hsourced hviews
  refine hfollows.agree (R := fun g u u' => SameParts u u' ∧ u.db = w.db ∧ ∀ m ∈ g.1.read, ∃ slot, w.db.objects.get slot = some m)
    (fun g u u' op hr hok => ?_) ⟨h, rfl, fun _ hm => absurd hm List.not_mem_nil⟩
  obtain ⟨hsame, hbase, hread⟩ := hr
  rw [← hbase] at hdb hread
  obtain ⟨hanswer, hnext, hkept, hread'⟩ := @SameParts.view env u u' g.1 hsame hdb op hok.2 hread hok.1
  rw [hbase] at hread'
  exact ⟨hanswer, ⟨trivial, trivial⟩, hnext, hkept.trans hbase, hread'⟩

end

/-! ## Backup and restore -/

section
variable {env : Env} {w : World}

/-- A directory is that of one database and one part store. -/
theorem LaidOut.unique {dir : DataDir} {w' : World} (h : LaidOut dir w) (h' : LaidOut dir w') :
    w'.db = w.db ∧ ∀ x, w'.files.get x = w.files.get x := by
  obtain ⟨f, hf, hholds⟩ := h.parts
  obtain ⟨f', hf', hholds'⟩ := h'.parts
  rw [hf] at hf'
  cases hf'
  have hdb := h.metaRedb.symm.trans h'.metaRedb
  exact ⟨(Option.some.inj hdb).symm, fun x => (hholds'.file x).symm.trans (hholds.file x)⟩

/-- A server on the restored directory, whenever it runs, has the database and for every part of a
    manifest its file; and everything that reads finds the same. -/
theorem backup_round_trips (henv : env.Sane) (hw : Sequential env (HasRoom env) w) {dir : DataDir} (hdir : LaidOut dir w)
    {order : List Hash → List Hash} (horder : ∀ l, (order l).Nodup ∧ ∀ x, x ∈ order l ↔ x ∈ l) :
    ∃ report snapshot copied target, backup order dir .empty = .ok (report, dir, snapshot) ∧ report.partsMissing = [] ∧
      restore snapshot .empty = .ok (copied, target) ∧ LaidOut target w.kept ∧
      (∀ w', LaidOut target w' → w'.db = w.db ∧ ReadsAlike env w w' ∧
        ∀ slot m, w.db.objects.get slot = some m → ∀ p ∈ m.parts, ∃ data, env.blake3 data = p.hash ∧
          w.files.get p.hash = some data ∧ w'.files.get p.hash = some data) ∧
      (scanRebuild env dir).corrupted = [] ∧ (scanRebuild env target).corrupted = [] := by
  have hsteady := sequential_steady henv (fun _ _ h => h) hw
  obtain ⟨report, snapshot, copied, target, hbackup, hmissing, hrestore, htarget⟩ := hsteady.restored hdir horder
  refine ⟨report, snapshot, copied, target, hbackup, hmissing, hrestore, htarget, fun w' hw' => ?_, hdir.sound hsteady.named,
    htarget.sound hsteady.kept_named⟩
  obtain ⟨hdb, hfiles⟩ := htarget.unique hw'
  have hsame : ∀ slot m, w.db.objects.get slot = some m → ∀ p ∈ m.parts, w'.files.get p.hash = w.files.get p.hash := by
    intro slot m hm p hp
    rw [hfiles]
    exact hsteady.mirrors.referenced _ (Table.mem_rows.mpr hm) p hp
  refine ⟨hdb, reads_alike hsteady.tidy.wellKeyed ⟨hdb, hsame⟩, fun slot m hm p hp => ?_⟩
  obtain ⟨data, hdata⟩ := hsteady.file (Table.mem_rows.mpr hm) hp
  exact ⟨data, hsteady.named _ _ hdata, hdata, (hsame slot m hm p hp).trans hdata⟩

end

set_option maxRecDepth 20000 in
theorem backup_round_trips_left_behind : ∃ dir report snapshot copied target, LaidOut dir (served sampleEnv .empty leftBehind) ∧
    backup List.dedup dir .empty = .ok (report, dir, snapshot) ∧ report.partsMissing = [] ∧
      restore snapshot .empty = .ok (copied, target) ∧ ∀ w', LaidOut target w' → ReadsAlike sampleEnv (served sampleEnv .empty leftBehind) w' := by
  have hw : Sequential sampleEnv (HasRoom sampleEnv) (served sampleEnv .empty leftBehind) :=
    sequential_served (fun _ _ hcheck => hasRoom_of_check hcheck) .empty (by rfl)
  obtain ⟨dir, hdir⟩ := laidOut_exists (served sampleEnv .empty leftBehind)
  obtain ⟨report, snapshot, copied, target, hbackup, hmissing, hrestore, -, hsame, -⟩ :=
    @backup_round_trips _ _ sampleEnv_sane hw dir hdir List.dedup fun l => ⟨List.nodup_dedup l, fun x => List.mem_dedup⟩
  exact ⟨dir, report, snapshot, copied, target, hdir, hbackup, hmissing, hrestore, fun w' hw' => (hsame w' hw').2.1⟩

/-! ## A saturated count -/

/-- Every request succeeds. -/
def AllSucceed (env : Env) : World → List Request → Prop
  | _, [] => True
  | w, r :: requests => (∃ resp, (run env (r.handler env) w).1 = .ok resp) ∧ AllSucceed env (run env (r.handler env) w).2 requests

section
variable {env : Env} {bucket : Str} {key : Nat → Str} {body : Bytes} {n d : Nat} {w : World}

theorem allSucceed_append {before after : List Request} (h : AllSucceed env w before) (h' : AllSucceed env (served env w before) after) :
    AllSucceed env w (before ++ after) := by
  induction before generalizing w with
  | nil => exact h'
  | cons r before ih => exact ⟨h.1, ih h.2 h'⟩

theorem allSucceed_puts (hnames : Names bucket key) (h : Filled env bucket key body 0 0 w) (n : Nat) :
    AllSucceed env w ((List.range n).map (putCopy bucket key body)) := by
  induction n with
  | zero => trivial
  | succ n ih =>
    rw [List.range_succ, List.map_append]
    exact allSucceed_append ih ⟨filled_put_succeeds (filled_puts hnames h n), trivial⟩

theorem allSucceed_deletes (hnames : Names bucket key) (h : Filled env bucket key body n 0 w) (hd : d ≤ n) :
    AllSucceed env w ((List.range d).map (deleteCopy bucket key)) := by
  induction d with
  | zero => trivial
  | succ d ih =>
    rw [List.range_succ, List.map_append]
    exact allSucceed_append (ih (by omega)) ⟨filled_delete_succeeds (filled_deletes hnames h (by omega)) (by omega), trivial⟩

theorem allSucceed_copies (hnames : Names bucket key) (hd : d ≤ n) : AllSucceed env .empty (copies bucket key body n d) := by
  have hstart := filled_created env bucket key body
  refine ⟨⟨_, rfl⟩, allSucceed_append (allSucceed_puts hnames hstart n) ?_⟩
  exact allSucceed_deletes hnames (filled_puts hnames hstart n) hd

/-- The part of an object that is left is referenced. -/
theorem Filled.referenced (h : Filled env bucket key body n d w) (hdn : d < n) : env.blake3 body ∈ referenced w.db := by
  obtain ⟨m, hm, hkey, -, -, -, hparts⟩ := h.rows d le_rfl hdn
  obtain ⟨cfg, hcfg, -⟩ := h.configured
  have hrange : ((copyKey bucket key d).encode, m) ∈ bucketRange w.db bucket := by
    have hin := mem_bucketRange_of_slot (Table.mem_rows.mpr hm) (congrArg ManifestKey.encode hkey.symm)
    rw [hkey] at hin
    exact hin
  have hlisted : m ∈ handleListAllManifestsInBucket w.db bucket := by
    refine List.mem_filter.mpr ⟨List.mem_map_of_mem hrange, decide_eq_true ?_⟩
    rw [hkey]
    rfl
  refine List.mem_flatMap.mpr ⟨m, List.mem_flatMap.mpr ⟨_, Table.mem_rows.mpr hcfg, hlisted⟩, ?_⟩
  rw [hparts]
  exact List.mem_singleton_self _

end

/-- One object more than the count can hold, and as many deletions as it has counted: every request
    succeeds, and the backup misses the part of the object that is left. -/
theorem a_saturated_count_loses_a_part : ¬ ∀ requests : List Request, (∀ r ∈ requests, r.WellFormed) →
    AllSucceed sampleEnv .empty requests → ∀ dir, LaidOut dir (served sampleEnv .empty requests) →
      ∃ report snapshot, backup List.dedup dir .empty = .ok (report, dir, snapshot) ∧ report.partsMissing = [] := by
  intro hall
  have hless : u32Max < 2 ^ 32 := by decide
  have hfilled : Filled sampleEnv (str "bucket") natStr (str "a") (2 ^ 32) u32Max
      (served sampleEnv .empty (copies (str "bucket") natStr (str "a") (2 ^ 32) u32Max)) := filled_copies names_natStr (le_of_lt hless)
  obtain ⟨-, hfile⟩ := hfilled.gone (Nat.min_le_right ..)
  have hreferenced := hfilled.referenced hless
  obtain ⟨dir, hdir⟩ := laidOut_exists (served sampleEnv .empty (copies (str "bucket") natStr (str "a") (2 ^ 32) u32Max))
  obtain ⟨report, snapshot, hbackup, hmissing⟩ := hall _ (copies_wellFormed names_natStr)
    (allSucceed_copies names_natStr (le_of_lt hless)) dir hdir
  obtain ⟨db, parts⟩ := dir
  obtain ⟨rfl, src, rfl, hsrc⟩ := hdir
  obtain ⟨report', dst, hbackup', hnames, -⟩ := @backup_ok _ _ List.dedup (fun l => ⟨List.nodup_dedup l, fun x => List.mem_dedup⟩) _ hsrc
  rw [hbackup] at hbackup'
  cases hbackup'
  have hmem := (hnames _).mpr ⟨_, hreferenced, hfile, rfl⟩
  rw [hmissing] at hmem
  cases hmem

end S3lite
