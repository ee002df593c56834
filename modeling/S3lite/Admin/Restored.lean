/-
  S3lite.Admin.Restored — a server on a restored backup.

  A backup copies the database as it is, and of the part files those that a manifest references.
  - `Mirrors`: a world that has the same database and the files that matter: those of referenced
    parts, and those of what the current request wrote.
  - `Mirrors.step`: every operation of a request or a sweep is answered alike and keeps it. The
    files a request opens are of a manifest it read (`sourcing`), the parts it references it wrote
    or read (`grounding`).
  - `backup_restores`: backup and restore lose no part, and the restored server answers every
    later request, and every sweep, as the original would have.
-/
import S3lite.Admin.Backup
import S3lite.Safety.Sources
import S3lite.Lifecycle.Rules
import S3lite.Vault.Effects

namespace S3lite

open Handler

/-- No count saturates, and no two contents collide. -/
structure Roomy (env : Env) (w : World) (op : Op) : Prop where
  room : HasRoom env w op
  collision : NoCollision env w op

/-- The directory is the server's: its database and its part files. -/
structure LaidOut (dir : DataDir) (w : World) : Prop where
  metaRedb : dir.metaRedb = some w.db
  parts : ∃ f, dir.parts = some f ∧ Holds f fun x => w.files.get x

/-- The server without the files that no manifest references. -/
def World.kept (w : World) : World := { w with files := w.files.restrict fun x => (referenced w.db).contains x }

theorem mem_referenced {db : Db} (hdb : WellKeyed db) (hhoused : Housed db) {x : Hash} :
    x ∈ referenced db ↔ ∃ r ∈ db.objects.rows, ∃ p ∈ r.2.parts, p.hash = x := by
  simp only [referenced, allManifests, handleListBuckets, List.mem_flatMap, List.mem_map]
  constructor
  · intro h
    obtain ⟨m, ⟨b, -, hm⟩, p, hp, hx⟩ := h
    exact ⟨_, ((mem_listAll_iff hdb).mp hm).1.row, p, hp, hx⟩
  · intro h
    obtain ⟨r, hr, p, hp, hx⟩ := h
    -- the bucket of every row is listed
    obtain ⟨cfg, hcfg⟩ := Option.isSome_iff_exists.mp (hhoused r hr)
    have hstored : Stored db r.2 := Table.mem_rows.mp ((hdb r hr).1 ▸ hr)
    exact ⟨r.2, ⟨_, Table.mem_rows.mpr hcfg, (mem_listAll_iff hdb).mpr ⟨hstored, rfl⟩⟩, p, hp, hx⟩

/-! ## Worlds that differ in unreferenced files -/

structure Mirrors (env : Env) (gr : Ground) (w w' : World) : Prop where
  db : w'.db = w.db
  clock : w'.clock = w.clock
  uuids : w'.uuids = w.uuids
  less : ∀ x data, w'.files.get x = some data → w.files.get x = some data
  referenced : ∀ r ∈ w.db.objects.rows, ∀ p ∈ r.2.parts, w'.files.get p.hash = w.files.get p.hash
  written : ∀ data ∈ gr.written, w'.files.get (env.blake3 data) = w.files.get (env.blake3 data)

section
variable {env : Env} {w w' : World} {g : Ghost} {gr gs : Ground}

theorem Mirrors.idle (h : Mirrors env gr w w') : Mirrors env .start w w' :=
  ⟨h.db, h.clock, h.uuids, h.less, h.referenced, fun _ hd => absurd hd List.not_mem_nil⟩

/-- Both have the content under its hash in the end, if they had no other there. -/
theorem Mirrors.write (h : Mirrors env gr w w') {data : Bytes} (hnew : NoCollision env w (.writeBytes data)) :
    (writePart env w'.files data).2.get (env.blake3 data) = (writePart env w.files data).2.get (env.blake3 data) ∧
      ∀ x, x ≠ env.blake3 data → (writePart env w'.files data).2.get x = w'.files.get x ∧
        (writePart env w.files data).2.get x = w.files.get x := by
  have hself : ∀ files : Table Hash Bytes, (∀ bytes, files.get (env.blake3 data) = some bytes → bytes = data) →
      (writePart env files data).2.get (env.blake3 data) = some data := by
    intro files hsame
    rw [writePart_get]
    split
    · rfl
    · rename_i hnot
      obtain ⟨bytes, hbytes⟩ := Option.ne_none_iff_exists'.mp fun hnone => hnot ⟨rfl, hnone⟩
      rw [hbytes, hsame bytes hbytes]
  refine ⟨?_, fun x hx => ?_⟩
  · rw [hself w.files (hnew data rfl), hself w'.files fun bytes hb => hnew data rfl bytes (h.less _ _ hb)]
  · rw [writePart_get, writePart_get, if_neg fun e => hx e.1, if_neg fun e => hx e.1]
    exact ⟨rfl, rfl⟩

theorem Mirrors.step (hsteady : Steady env w g gr) (hread : ∀ m ∈ gs.read, ∃ slot, w.db.objects.get slot = some m)
    (h : Mirrors env gr w w') (op : Op) (hgr : gr.Allows env op) (hgs : gs.Opens op) (hnew : NoCollision env w op) :
    (exec env op w').1 = (exec env op w).1 ∧ Mirrors env (gr.next op (exec env op w).1) (exec env op w).2 (exec env op w').2 := by
  cases op with
  | metaOp op =>
    have hexec : op.exec (env.now w'.clock) (env.now (w'.clock + 1)) w'.db = op.exec (env.now w.clock) (env.now (w.clock + 1)) w.db := by
      rw [h.db, h.clock]
    have hanswer : (exec env (.metaOp op) w').1 = (exec env (.metaOp op) w).1 := congrArg (fun r => r.1) hexec
    have hdb : (exec env (.metaOp op) w').2.db = (exec env (.metaOp op) w).2.db := congrArg (fun r => r.2) hexec
    refine ⟨hanswer, hdb, congrArg (· + 2) h.clock, h.uuids, h.less, fun r hr p hp => ?_,
      fun data hd => h.written data (gr.nextMeta_written op _ ▸ hd)⟩
    -- what a row references after the step, a row did before, or the request wrote or read
    rcases (exec_objects op _ _ w.db).part_origin hr hp with hp | hp
    · obtain ⟨r0, hr0, hp⟩ := hp
      exact h.referenced r0 hr0 p hp
    · rcases gr.has_of_counts hgr hp with hp | hp
      · obtain ⟨data, hdata, hhash, -⟩ := hp
        rw [hhash]
        exact h.written data hdata
      · obtain ⟨src, hsrc, hp⟩ := hp
        obtain ⟨slot, hslot⟩ := hsteady.grounded.read src hsrc
        exact h.referenced _ (Table.mem_rows.mpr hslot) p hp
  | writeBytes data =>
    obtain ⟨hself, hother⟩ := h.write hnew
    have hkept : ∀ x, w'.files.get x = w.files.get x →
        (writePart env w'.files data).2.get x = (writePart env w.files data).2.get x := by
      intro x hx
      by_cases e : x = env.blake3 data
      · rw [e]
        exact hself
      · rw [(hother x e).1, (hother x e).2, hx]
    refine ⟨rfl, h.db, h.clock, h.uuids, fun x bytes hx => ?_, fun r hr p hp => hkept _ (h.referenced r hr p hp), fun d hd => ?_⟩
    · by_cases e : x = env.blake3 data
      · subst e
        exact hself.symm.trans hx
      · exact (hother x e).2.trans (h.less x bytes ((hother x e).1.symm.trans hx))
    · rcases List.mem_cons.mp hd with hd | hd
      · rw [hd]
        exact hself
      · exact hkept _ (h.written d hd)
  | readPart hash =>
    obtain ⟨m, hm, p, hp, rfl⟩ := hgs
    obtain ⟨slot, hslot⟩ := hread m hm
    exact ⟨h.referenced _ (Table.mem_rows.mpr hslot) p hp, h⟩
  | deletePart hash =>
    have herase : ∀ x, w'.files.get x = w.files.get x → (w'.files.erase hash).get x = (w.files.erase hash).get x := by
      intro x hx
      rw [Table.get_erase, Table.get_erase, hx]
    refine ⟨rfl, h.db, h.clock, h.uuids, fun x bytes hx => ?_, fun r hr p hp => herase _ (h.referenced r hr p hp), fun d hd => ?_⟩
    · by_cases e : x = hash
      · subst e
        exact absurd ((Table.get_erase_self w'.files x).symm.trans hx) (fun hnone => by cases hnone)
      · exact (Table.get_erase_ne w.files e).trans (h.less x bytes ((Table.get_erase_ne w'.files e).symm.trans hx))
    · exact absurd hd List.not_mem_nil
  | nowUtc => exact ⟨congrArg env.now h.clock, h.db, congrArg (· + 1) h.clock, h.uuids, h.less, h.referenced, h.written⟩
  | newUuid => exact ⟨congrArg env.uuid h.uuids, h.db, h.clock, congrArg (· + 1) h.uuids, h.less, h.referenced, h.written⟩

end

/-! ## The running server -/

/-- A running server serves requests and sweeps. -/
inductive Job where
  | serve (r : Request)
  | sweep

namespace Job

def WellFormed : Job → Prop
  | serve r => r.WellFormed
  | sweep => True

instance decidableWellFormed : DecidablePred WellFormed
  | serve r => inferInstanceAs (Decidable r.WellFormed)
  | sweep => .isTrue trivial

def handler (env : Env) : Job → Handler (Response ⊕ SweepReport)
  | serve r => do
    let response ← r.handler env
    ok (.inl response)
  | sweep => do
    let report ← sweepOnce
    ok (.inr report)

/-- The answers to the jobs, one after the other. -/
def answers (env : Env) : World → List Job → List (Except Failure (Response ⊕ SweepReport))
  | _, [] => []
  | w, j :: jobs => (run env (j.handler env) w).1 :: answers env (run env (j.handler env) w).2 jobs

/-- The jobs are well formed, and every step of each meets the condition. -/
def AllMeet (env : Env) (Fits : World → Op → Prop) : World → List Job → Prop
  | _, [] => True
  | w, j :: jobs => j.WellFormed ∧ MeetsAll env Fits (j.handler env) w ∧ AllMeet env Fits (run env (j.handler env) w).2 jobs

theorem keeps {G : Type} {P : Prog.Protocol Op Op.Res G} {env : Env} {g : G} {j : Job}
    (hserve : ∀ r, j = serve r → Keeps P (r.handler env) g fun _ _ => True) (hsweep : Keeps P sweepOnce g fun _ _ => True) :
    Keeps P (j.handler env) g fun _ _ => True := by
  cases j with
  | serve r => exact keeps_bind.mpr ((hserve r rfl).mono fun _ _ _ => keeps_ok.mpr trivial)
  | sweep => exact keeps_bind.mpr (hsweep.mono fun _ _ _ => keeps_ok.mpr trivial)

end Job

section
variable {env : Env} {w w' : World} {j : Job}

theorem Mirrors.job (henv : env.Sane) (hsteady : Steady env w .start .start) (h : Mirrors env .start w w') (hwell : j.WellFormed)
    (hm : MeetsAll env (Roomy env) (j.handler env) w) :
    (run env (j.handler env) w').1 = (run env (j.handler env) w).1 ∧ Steady env (run env (j.handler env) w).2 .start .start ∧
      Mirrors env .start (run env (j.handler env) w).2 (run env (j.handler env) w').2 := by
  have hdiscipline : Keeps (discipline env) (j.handler env) .start fun _ _ => True :=
    Job.keeps (fun r hr => request_keeps (hr ▸ hwell : (Job.serve r).WellFormed)) (sweep_keeps rfl)
  have hgrounding : Keeps (grounding env) (j.handler env) .start fun _ _ => True :=
    Job.keeps (fun r _ => request_grounded r) sweep_grounded
  have hsourcing : Keeps sourcing (j.handler env) .start fun _ _ => True := Job.keeps (fun r _ => request_sourced r) sweep_sourced
  have hfollows := Prog.Follows.prod (Prog.Follows.prod hdiscipline hgrounding) hsourcing
  have hstep : ∀ (g : (Ghost × Ground) × Ground) (w w' : World) (op : Op),
      (Steady env w g.1.1 g.1.2 ∧ (∀ m ∈ g.2.read, ∃ slot, w.db.objects.get slot = some m) ∧ Mirrors env g.1.2 w w') →
        ((g.1.1.Allows env op ∧ g.1.2.Allows env op) ∧ g.2.Opens op) → Roomy env w op →
          (exec env op w').1 = (exec env op w).1 ∧ ((op.Sound env (exec env op w).1 ∧ op.Sound env (exec env op w).1) ∧ True) ∧
            Steady env (exec env op w).2 (g.1.1.next op (exec env op w).1) (g.1.2.next op (exec env op w).1) ∧
              (∀ m ∈ (g.2.next op (exec env op w).1).read, ∃ slot, (exec env op w).2.db.objects.get slot = some m) ∧
                Mirrors env (g.1.2.next op (exec env op w).1) (exec env op w).2 (exec env op w').2 := by
    intro g w w' op hr hok hfit
    obtain ⟨hsteady, hread, hmirrors⟩ := hr
    obtain ⟨hsound, hsteady'⟩ := hsteady.step henv op hok.1.1 hok.1.2 hfit.room
    obtain ⟨hsame, hmirrors'⟩ := hmirrors.step hsteady hread op hok.1.2 hok.2 hfit.collision
    refine ⟨hsame, ⟨⟨hsound, hsound⟩, trivial⟩, hsteady', fun m hm => ?_, hmirrors'⟩
    rw [objects_of_mem_read hm]
    rcases mem_read_next hsteady.tidy.wellKeyed hm with hm | hm
    · exact hread m hm
    · exact hm
  obtain ⟨hsame, g, hsteady', -, hmirrors'⟩ := hfollows.mirror hstep hm
    ⟨hsteady, fun _ hm => absurd hm List.not_mem_nil, h⟩
  exact ⟨hsame, hsteady'.idle, hmirrors'.idle⟩

theorem Mirrors.answers (henv : env.Sane) (hsteady : Steady env w .start .start) (h : Mirrors env .start w w') {jobs : List Job}
    (hjobs : Job.AllMeet env (Roomy env) w jobs) : Job.answers env w' jobs = Job.answers env w jobs := by
  induction jobs generalizing w w' with
  | nil => rfl
  | cons j jobs ih =>
    obtain ⟨hwell, hm, hrest⟩ := hjobs
    obtain ⟨hsame, hsteady', h'⟩ := h.job henv hsteady hwell hm
    rw [Job.answers, Job.answers, hsame, ih hsteady' h' hrest]

/-! ## Backup and restore -/

theorem kept_get (w : World) (x : Hash) : w.kept.files.get x = if x ∈ referenced w.db then w.files.get x else none := by
  show (w.files.restrict fun x => (referenced w.db).contains x).get x = _
  simp only [Table.get_restrict, List.contains_iff_mem]

theorem Steady.mirrors (h : Steady env w .start .start) : Mirrors env .start w w.kept := by
  refine ⟨rfl, rfl, rfl, fun x data hx => ?_, fun r hr p hp => ?_, fun _ hd => absurd hd List.not_mem_nil⟩
  · rw [kept_get] at hx
    split at hx
    · exact hx
    · cases hx
  · rw [kept_get, if_pos ((mem_referenced h.tidy.wellKeyed h.housed).mpr ⟨r, hr, p, hp, rfl⟩)]

/-- Backup and restore lose no part that is referenced, and keep no other. -/
theorem Steady.restored (h : Steady env w .start .start) {dir : DataDir} (hdir : LaidOut dir w) {order : List Hash → List Hash}
    (horder : ∀ l, (order l).Nodup ∧ ∀ x, x ∈ order l ↔ x ∈ l) :
    ∃ report snapshot copied target, backup order dir .empty = .ok (report, dir, snapshot) ∧ report.partsMissing = [] ∧
      restore snapshot .empty = .ok (copied, target) ∧ LaidOut target w.kept := by
  obtain ⟨db, parts⟩ := dir
  obtain ⟨rfl, src, rfl, hsrc⟩ := hdir
  obtain ⟨report, dst, hbackup, hmissing, hdst⟩ := backup_ok horder hsrc
  obtain ⟨target, hrestore, htarget⟩ := restore_ok hdst w.db
  refine ⟨report, _, _, _, hbackup, List.eq_nil_iff_forall_not_mem.mpr fun name hname => ?_, hrestore,
    rfl, target, rfl, htarget.congr (kept_get w)⟩
  -- a referenced part has its file
  obtain ⟨x, hx, hnone, -⟩ := (hmissing name).mp hname
  obtain ⟨r, hr, p, hp, rfl⟩ := (mem_referenced h.tidy.wellKeyed h.housed).mp hx
  obtain ⟨data, hdata⟩ := h.file hr hp
  rw [hdata] at hnone
  cases hnone

/-- The scan of a directory whose files have the contents they are named by. -/
theorem LaidOut.sound {dir : DataDir} (hdir : LaidOut dir w) (hnamed : NamedFiles env w) : (scanRebuild env dir).corrupted = [] := by
  obtain ⟨db, parts⟩ := dir
  obtain ⟨rfl, f, rfl, hf⟩ := hdir
  refine List.eq_nil_iff_forall_not_mem.mpr fun name hname => ?_
  obtain ⟨x, data, hpart, hne, -⟩ := (mem_corrupted hf (some w.db)).mp hname
  exact hne (hnamed x data hpart)

theorem Steady.kept_named (h : Steady env w .start .start) : NamedFiles env w.kept :=
  fun x data hx => h.named x data (h.mirrors.less x data hx)

theorem backup_restores (henv : env.Sane) (hw : Sequential env (Roomy env) w) {dir : DataDir} (hdir : LaidOut dir w)
    {order : List Hash → List Hash} (horder : ∀ l, (order l).Nodup ∧ ∀ x, x ∈ order l ↔ x ∈ l) :
    ∃ report snapshot copied target, backup order dir .empty = .ok (report, dir, snapshot) ∧ report.partsMissing = [] ∧
      restore snapshot .empty = .ok (copied, target) ∧ LaidOut target w.kept ∧ (scanRebuild env target).corrupted = [] ∧
        ∀ jobs, Job.AllMeet env (Roomy env) w jobs → Job.answers env w.kept jobs = Job.answers env w jobs := by
  have hsteady := sequential_steady henv (fun _ _ hfit => hfit.room) hw
  obtain ⟨report, snapshot, copied, target, hbackup, hmissing, hrestore, htarget⟩ := hsteady.restored hdir horder
  exact ⟨report, snapshot, copied, target, hbackup, hmissing, hrestore, htarget, htarget.sound hsteady.kept_named,
    fun jobs hjobs => hsteady.mirrors.answers henv hsteady hjobs⟩

end

/-! ## A concrete backup -/

theorem laidOut_exists (w : World) : ∃ dir, LaidOut dir w := by
  obtain ⟨f, hf⟩ := exists_holds w.files.rows
  refine ⟨⟨some w.db, some f⟩, rfl, f, rfl, hf.congr fun x => ?_⟩
  unfold Table.get
  congr!

theorem roomy_of_check {env : Env} {w : World} {op : Op} (h : rangedCheck env w op = true) : Roomy env w op :=
  ⟨(ranged_of_check h).room, (ranged_of_check h).collision⟩

def Job.allCheck (env : Env) : World → List Job → Bool
  | _, [] => true
  | w, j :: jobs => @Prog.meetsCheck _ _ _ (Except Failure (Response ⊕ SweepReport)) (exec env) (rangedCheck env) (j.handler env) w &&
      Job.allCheck env (run env (j.handler env) w).2 jobs

theorem Job.allMeet_of_check {env : Env} {w : World} {jobs : List Job} (hwell : ∀ j ∈ jobs, j.WellFormed)
    (h : Job.allCheck env w jobs = true) : Job.AllMeet env (Roomy env) w jobs := by
  induction jobs generalizing w with
  | nil => trivial
  | cons j jobs ih =>
    obtain ⟨hj, hjobs⟩ := Bool.and_eq_true_iff.mp h
    exact ⟨hwell j (List.mem_cons_self ..), Prog.meets_of_check (fun _ _ hcheck => roomy_of_check hcheck) hj,
      ih (fun j' hj' => hwell j' (List.mem_cons_of_mem _ hj')) hjobs⟩

/-- An object, and the bytes of a PUT that was refused. -/
def leftBehind : List Request :=
  [.createBucket (str "bucket") [], .putObject (str "bucket") (str "k") [] (str "b"),
    .putObject (str "bucket") (str "k") [(str "x-amz-object-lock-legal-hold", str "MAYBE")] (str "a")]

def afterwards : List Job :=
  [.serve (.getObject (str "bucket") (str "k") none []), .sweep, .serve (.putObject (str "bucket") (str "j") [] (str "a")),
    .serve (.deleteObject (str "bucket") (str "k") none), .serve (.getObject (str "bucket") (str "j") none [])]

set_option maxRecDepth 20000 in
theorem backup_restores_left_behind :
    ∃ dir report snapshot copied target, LaidOut dir (served sampleEnv .empty leftBehind) ∧
      backup List.dedup dir .empty = .ok (report, dir, snapshot) ∧ restore snapshot .empty = .ok (copied, target) ∧
        LaidOut target (served sampleEnv .empty leftBehind).kept ∧
          Job.answers sampleEnv (served sampleEnv .empty leftBehind).kept afterwards =
            Job.answers sampleEnv (served sampleEnv .empty leftBehind) afterwards := by
  have hw : Sequential sampleEnv (Roomy sampleEnv) (served sampleEnv .empty leftBehind) :=
    sequential_served (fun _ _ hcheck => roomy_of_check hcheck) .empty (by rfl)
  obtain ⟨dir, hdir⟩ := laidOut_exists (served sampleEnv .empty leftBehind)
  obtain ⟨report, snapshot, copied, target, hbackup, -, hrestore, htarget, -, hanswers⟩ :=
    @backup_restores _ _ sampleEnv_sane hw dir hdir List.dedup fun l => ⟨List.nodup_dedup l, fun x => List.mem_dedup⟩
  refine ⟨dir, report, snapshot, copied, target, hdir, hbackup, hrestore, htarget, hanswers afterwards ?_⟩
  exact Job.allMeet_of_check (by decide) (by rfl)

end S3lite
