/-
  S3lite.Safety.Completion — completing an upload while parts of it are uploaded again.

  The parts of the object are selected on one reading of the upload and committed in a later
  transaction, which does not look at the upload's parts again.
  - `Committing`: a completion that has made its selection.
  - `completes_current`: as long as no part that one has selected is replaced, the object gets
    parts of the upload it consumes; and they have not been collected, neither row nor file, as
    long as no count saturates, no marked part is marked again and a part that gets a row has
    its file.
  - `a_freed_part_is_committed`: the part is replaced, and collected, before the commit.
-/
import S3lite.Safety.Interlock
import S3lite.Server.Performs

namespace S3lite

open Handler

/-! ## Between the selection and the commit -/

/-- The program replaces the upload by the manifest, once it has read the clock. -/
inductive Committing : Prog Op Op.Res Unit → ManifestKey → Manifest → Prop
  | now {p : Prog Op Op.Res Unit} {key : ManifestKey} {m : Manifest} :
      p.pending = some (.metaOp (.completeMultipartUpload key m)) → Committing p key m
  | later {k : Time → Prog Op Op.Res Unit} {key : ManifestKey} {m : Manifest} (t : Time) : Committing (k t) key m →
      Committing (.call .nowUtc k) key m

theorem not_committing_ret {a : Unit} {key : ManifestKey} {m : Manifest} :
    ¬ Committing (.ret a : Prog Op Op.Res Unit) key m := by
  intro h
  cases h with
  | now h => cases h

/-- The upload read by the operation before, clock readings apart. -/
def Op.lastRead (g : Option (ManifestKey × Manifest)) : (op : Op) → op.Res → Option (ManifestKey × Manifest)
  | .metaOp (.getManifest key), r => r.map fun m => (key, m)
  | .nowUtc, _ => g
  | _, _ => none

/-- An upload is completed right after it was read, with parts it had. -/
def rereading : Prog.Protocol Op Op.Res (Option (ManifestKey × Manifest)) where
  ok := fun g op => ∀ key m, op = .metaOp (.completeMultipartUpload key m) →
    ∃ up, g = some (key, up) ∧ ∀ p ∈ m.parts, p ∈ up.parts
  res := fun _ _ _ => True
  next := fun g op r => op.lastRead g r

section
variable {env : Env}

theorem rereading_completeMultipartUpload {bucket key uploadId : Str} {body : Bytes} {g : Option (ManifestKey × Manifest)} :
    Keeps rereading (completeMultipartUpload env bucket key uploadId body) g fun _ _ => True := by
  have hplain : ∀ {g : Option (ManifestKey × Manifest)} {o : Op}, o.completes = false → rereading.ok g o := by
    intro g o ho key m e
    rw [e] at ho
    cases ho
  unfold completeMultipartUpload findUpload
  simp only [keeps_bind, keeps_ofExcept, keeps_ensure, keeps_op, keeps_orFail, keeps_mapErr, keeps_ok]
  intro request _ _ _
  refine ⟨hplain rfl, fun found _ up hfound selected hselected => ?_⟩
  have hread : (Op.metaOp (.getManifest ⟨bucket, key, uploadId⟩)).lastRead g found = some (⟨bucket, key, uploadId⟩, up) := by
    rw [(Option.filter_eq_some_iff.mp hfound).1]
    rfl
  unfold checkSizeSum
  split
  · exact keeps_panicked
  · refine keeps_ok.mpr ⟨hplain rfl, fun now _ => keeps_etagOf fun etag _ => ⟨fun key' m e => ?_, fun r _ effect _ => ?_⟩⟩
    · cases e
      exact ⟨up, hread, selectParts_subset hselected⟩
    · exact AllowsGc.gcFreedParts ⟨fun _ _ => hplain rfl, fun _ _ => hplain rfl, fun _ _ => hplain rfl⟩ fun _ => trivial

theorem serves_rereading {p : Prog Op Op.Res Unit} (hp : Serves env p) : p.Follows rereading (fun _ _ => True) none := by
  have hplain : ∀ {α : Type} {x : Handler α}, Performs Uncompleted x → x.discard.Follows rereading (fun _ _ => True) none := by
    intro α x hx
    refine Prog.Follows.of_only (fun g o ho key m e => ?_) (Keeps.discard hx) none
    rw [e] at ho
    cases ho
  rcases hp with ⟨r, -, rfl⟩ | rfl
  · cases hr : r.completing with
    | false => exact hplain (request_performs hr)
    | true =>
      cases r with
      | completeMultipartUpload bucket key uploadId body => exact rereading_completeMultipartUpload.discard
      | _ => cases hr
  · exact hplain sweep_performs

/-- What a program is committing it has read. -/
theorem Committing.read {p : Prog Op Op.Res Unit} {key : ManifestKey} {m : Manifest} (h : Committing p key m)
    {Q : Unit → Option (ManifestKey × Manifest) → Prop} {g : Option (ManifestKey × Manifest)} (hf : p.Follows rereading Q g) :
    ∃ up, g = some (key, up) ∧ ∀ p ∈ m.parts, p ∈ up.parts := by
  induction h generalizing g with
  | now hp =>
    obtain ⟨k, rfl⟩ := Prog.exists_call hp
    exact hf.1 _ _ rfl
  | later t _ ih => exact ih (hf.2 t trivial)

theorem Committing.completes {p : Prog Op Op.Res Unit} {key : ManifestKey} {m : Manifest} (h : Committing p key m)
    {Q : Unit → Ghost → Prop} {g : Ghost} (hf : p.Follows (discipline env) Q g) : Completes g key m := by
  induction h generalizing g with
  | now hp =>
    obtain ⟨k, rfl⟩ := Prog.exists_call hp
    exact hf.1
  | later t _ ih => exact ih (hf.2 t trivial)

theorem running_rereading {Guard : ServerConfig → Nat → Op → Prop} {c : ServerConfig} (h : Running env (Serves env) Guard c) (i : Nat) :
    ∃ g, (c.pool i).2.Follows rereading (fun _ _ => True) g := by
  obtain ⟨c', hc', hsame⟩ : ∃ c', Reach (exec env) rereading none (Serves env) (fun _ _ _ => True) .empty c' ∧ c.SameRun c' :=
    h.reghost fun _ _ _ _ _ _ => trivial
  have hsound := Reach.sound (I := fun _ _ => True) trivial (fun _ _ _ _ => trivial) (fun _ _ _ _ _ _ => ⟨trivial, trivial⟩)
    (fun p hp => serves_rereading hp) hc'
  exact ⟨c'.ghosts i, hsame.programs i ▸ hsound.2 i⟩

end

/-! ## What the commit finds -/

/-- No part that a completion has selected is replaced by another. -/
def KeepsListed (c : ServerConfig) (op : Op) : Prop :=
  ∀ key part, op = .metaOp (.appendPart key part) → ∀ j key' m, Committing (c.pool j).2 key' m → key'.encode = key.encode →
    ∀ p ∈ m.parts, p.partNumber = part.partNumber → p = part

/-- The row of the upload, if there is one, has the parts. -/
def HasParts (w : World) (key : ManifestKey) (m : Manifest) : Prop :=
  ∀ row, w.db.objects.get key.encode = some row → ∀ p ∈ m.parts, p ∈ row.parts

section
variable {env : Env} {w : World} {gs : Nat → Ghost}

/-- A manifest that another request stores is under another key. -/
theorem stored_elsewhere (ht : Tidy env w gs) {i j : Nat} {key : ManifestKey} {m m' : Manifest} (hcompletes : Completes (gs j) key m)
    (hclear : m'.key.NulFree) (hversion : m'.key.versionId = nullVersionId ∨ (gs i).drawn = some m'.key.versionId) :
    key.encode ≠ m'.key.encode := by
  obtain ⟨-, -, up, selected, now, hread, hup, -, -⟩ := hcompletes
  obtain ⟨hkey, hrow⟩ := ht.reading j key up hread
  intro e
  have hsame := ManifestKey.encode_injective hrow.clear hclear (hkey.symm.trans e)
  rcases hversion with hnull | hdrawn
  · exact (hrow.upload hup).1 ((congrArg ManifestKey.versionId hsame).trans hnull)
  · exact ht.unread i _ hdrawn j key up hread (congrArg ManifestKey.versionId hsame)

/-- The other requests leave the selected parts in the upload. -/
theorem HasParts.step (ht : Tidy env w gs) {i j : Nat} {key : ManifestKey} {m : Manifest} (hcompletes : Completes (gs j) key m)
    (h : HasParts w key m) {op : Op} (hok : (gs i).Allows env op)
    (hlisted : ∀ key' part, op = .metaOp (.appendPart key' part) → key.encode = key'.encode →
      ∀ p ∈ m.parts, p.partNumber = part.partNumber → p = part) : HasParts (exec env op w).2 key m := by
  cases op with
  | metaOp op =>
    have hstep := exec_objects op (env.now w.clock) (env.now (w.clock + 1)) w.db
    intro row hrow p hp
    rw [show (exec env (.metaOp op) w).2.db = (op.exec (env.now w.clock) (env.now (w.clock + 1)) w.db).2 from rfl] at hrow
    generalize (op.exec (env.now w.clock) (env.now (w.clock + 1)) w.db).2.objects = o at hstep hrow
    -- an edit of a row keeps its parts
    have hedit : ∀ {k : ManifestKey} {m' m'' : Manifest}, w.db.objects.get k.encode = some m' →
        (w.db.objects.insert k.encode m'').get key.encode = some row → m''.parts = m'.parts → p ∈ row.parts := by
      intro k m' m'' hm' hrow hparts
      by_cases e : key.encode = k.encode
      · rw [e, Table.get_insert_self] at hrow
        cases hrow
        rw [hparts]
        exact h m' (e ▸ hm') p hp
      · rw [Table.get_insert_ne _ _ e] at hrow
        exact h row hrow p hp
    cases hstep with
    | same => exact h row hrow p hp
    | put m' =>
      rw [Table.get_insert_ne _ _ (stored_elsewhere ht hcompletes hok.clear hok.version)] at hrow
      exact h row hrow p hp
    | delete k m' _ hm' =>
      rw [Table.get_erase] at hrow
      split at hrow
      · cases hrow
      · exact h row hrow p hp
    | state k s => exact absurd hok id
    | tags k tags m' _ hm' => exact hedit hm' hrow rfl
    | lock k lock m' _ hm' => exact hedit hm' hrow rfl
    | append k part m' now _ hm' =>
      by_cases e : key.encode = k.encode
      · rw [e, Table.get_insert_self] at hrow
        cases hrow
        have hold := h m' (e ▸ hm') p hp
        refine mem_replacePart.mpr ?_
        by_cases hn : p.partNumber = part.partNumber
        · exact Or.inr (hlisted k part rfl e p hp hn)
        · exact Or.inl ((List.mem_eraseP_of_neg (by simpa using hn)).mpr hold)
      · rw [Table.get_insert_ne _ _ e] at hrow
        exact h row hrow p hp
    | complete k m' up _ hup hs =>
      rw [Table.get_erase] at hrow
      split at hrow
      · cases hrow
      · obtain ⟨hb, hk, up', selected, now, -, -, -, rfl⟩ := (hok : Completes (gs i) k m')
        have hclear : (completedManifest k.bucket k.key up' selected now).key.NulFree := ⟨hb, hk, null_clear⟩
        rw [Table.get_insert_ne _ _ (stored_elsewhere (i := i) ht hcompletes hclear (Or.inl rfl))] at hrow
        exact h row hrow p hp
  | _ => exact h

end

/-- What a program has selected, and not yet committed, the upload still has. -/
theorem committing_hasParts {env : Env} (henv : env.Sane) {Guard : ServerConfig → Nat → Op → Prop}
    (hguard : ∀ c i op, Guard c i op → KeepsListed c op) {c : ServerConfig} (h : Running env (Serves env) Guard c) :
    ∀ j key m, Committing (c.pool j).2 key m → HasParts c.world key m := by
  induction h with
  | init => exact fun j key m hc => absurd hc not_committing_ret
  | @start c i p _ _ hp ih =>
    intro j key m hc
    rw [c.set_pool] at hc
    split at hc
    · obtain ⟨up, hup, -⟩ := hc.read (serves_rereading hp)
      cases hup
    · exact ih j key m hc
  | @drop c i _ ih =>
    intro j key m hc
    rw [c.set_pool] at hc
    split at hc
    · exact absurd hc not_committing_ret
    · exact ih j key m hc
  | @step c i op k hreach hk hg ih =>
    intro j key m hc
    obtain ⟨ht, -, hfollow⟩ := running_sound henv (fun _ hp => hp) (I := fun _ _ => True) trivial (fun _ _ _ _ => trivial)
      (fun _ _ _ _ _ _ _ => trivial) hreach
    have hpool := c.set_pool i j ((discipline env).next (c.ghosts i) op (exec env op c.world).1) (k (exec env op c.world).1)
    by_cases hj : j = i
    · subst hj
      rw [if_pos rfl] at hpool
      have hc : Committing (k (exec env op c.world).1) key m := (congrArg (fun r => Committing r.2 key m) hpool).mp hc
      -- the program has just read the upload, or the clock after it had
      obtain ⟨g, hf⟩ := running_rereading hreach j
      rw [hk] at hf
      obtain ⟨up, hup, hparts⟩ := hc.read (hf.2 _ trivial)
      cases op with
      | nowUtc => exact ih j key m (hk ▸ .later _ hc)
      | metaOp op =>
        cases op with
        | getManifest key' =>
          obtain ⟨row', hrow', e⟩ := Option.map_eq_some_iff.mp hup
          cases e
          intro row hrow
          obtain rfl : up = row := Option.some.inj (hrow'.symm.trans hrow)
          exact hparts
        | _ => cases hup
      | _ => cases hup
    · rw [if_neg hj] at hpool
      have hc : Committing (c.pool j).2 key m := (congrArg (fun r => Committing r.2 key m) hpool).mp hc
      have hok := hfollow i
      rw [hk] at hok
      refine (ih j key m hc).step ht (hc.completes (hfollow j)) hok.1 fun key' part e hkey => ?_
      exact hguard c i op hg key' part e j key m hc hkey

/-! ## The commit -/

/-- A completion about to commit takes parts of the upload that it consumes. -/
def ConsumesParts (c : ServerConfig) : Prop :=
  ∀ i key m k, (c.pool i).2 = .call (.metaOp (.completeMultipartUpload key m)) k → HasParts c.world key m

/-- Where there is an upload to consume, none of the parts has been collected: each has a live
    row with a count, and its file. -/
def PartsLive (c : ServerConfig) : Prop :=
  ∀ i key m k, (c.pool i).2 = .call (.metaOp (.completeMultipartUpload key m)) k → ∀ up,
    c.world.db.objects.get key.encode = some up → ∀ p ∈ m.parts, (∃ e, c.world.db.parts.get p.hash = some e ∧ 0 < e.refcount ∧
      e.state = .live) ∧ (c.world.files.get p.hash).isSome

/-- No part that a completion has selected is replaced, no count saturates, no marked part is
    marked again, and a part that gets a row has its file. -/
def KeepsParts (env : Env) (c : ServerConfig) (op : Op) : Prop :=
  KeepsListed c op ∧ HasRoom env c.world op ∧ MarksFirst c.world op ∧ FilesFound c.world op

/-- As long as no part that a completion has selected is replaced: at the commit the object's
    parts are parts of the upload. And none of them has been collected, as long as no count
    saturates, no marked part is marked again and a part that gets a row has its file. -/
theorem completes_current {env : Env} (henv : env.Sane) {c : ServerConfig} :
    (Running env (Serves env) (fun c _ op => KeepsListed c op) c → ConsumesParts c) ∧
      (Running env (Serves env) (fun c _ op => KeepsParts env c op) c → PartsLive c) := by
  constructor
  · intro h i key m k hk
    exact committing_hasParts henv (fun _ _ _ hg => hg) h i key m (.now (by rw [hk]; rfl))
  · intro h i key m k hk up hup p hp
    have hpart := committing_hasParts henv (fun _ _ _ hg => hg.1) h i key m (.now (by rw [hk]; rfl)) up hup p hp
    obtain ⟨hlock, hlive⟩ := running_liveFiles henv (fun _ _ _ hg => hg.2) h
    have hrefs := refs_pos.mpr ⟨_, Table.mem_rows.mpr hup, p, hpart, rfl⟩
    obtain ⟨e, he, hcount, hs⟩ := (hlock.counted p.hash).row hrefs
    exact ⟨⟨e, he, by omega, hs⟩, hlive _ e he hs⟩

/-! ## A part uploaded again -/

/-- No program is between its reading of the clock and its commit, and the one about to
    commit keeps its parts. -/
def listedCheck (n : Nat) (c : ServerConfig) : Op → Bool
  | .metaOp (.appendPart _ part) => (List.range n).all fun j =>
    match (c.pool j).2.pending with
    | some (.metaOp (.completeMultipartUpload _ m)) => m.parts.all fun p => decide (p.partNumber ≠ part.partNumber)
    | some .nowUtc => false
    | _ => true
  | _ => true

theorem keepsListed_of_check {n : Nat} {c : ServerConfig} (hq : c.Quiet .start n) {op : Op} (h : listedCheck n c op = true) :
    KeepsListed c op := by
  rintro key part rfl j key' m hc - p hp hn
  by_cases hj : j < n
  · have hcheck := List.all_eq_true.mp h j (List.mem_range.mpr hj)
    generalize (c.pool j).2 = q at hc hcheck
    cases hc with
    | now hpending =>
      rw [hpending] at hcheck
      exact absurd hn (of_decide_eq_true (List.all_eq_true.mp hcheck p hp))
    | later t hc => cases hcheck
  · have e : c.pool j = (.start, .ret ()) := hq j (by omega)
    rw [e] at hc
    exact absurd hc not_committing_ret

def completeBody : Bytes :=
  str "<CompleteMultipartUpload><Part><PartNumber>1</PartNumber><ETag>\"0cc175b9c0f1b6a831c399e269772661\"</ETag></Part></CompleteMultipartUpload>"

/-- A completion has selected part 1, and the part of the given number is uploaded, in so
    many steps. -/
def uploadedMeanwhile (partNumber steps : Nat) : List Event :=
  [.request 0 (.createBucket (str "bucket") []), .steps 0 2,
    .request 0 (.createMultipartUpload (str "bucket") (str "k") []), .steps 0 4,
    .request 0 (.uploadPart (str "bucket") (str "k") (str "aaaaa") 1 [] (str "a")), .steps 0 2,
    .request 1 (.completeMultipartUpload (str "bucket") (str "k") (str "aaaaa") completeBody), .steps 1 2,
    .request 0 (.uploadPart (str "bucket") (str "k") (str "aaaaa") partNumber [] (str "b")), .steps 0 steps]

/-- The second program is about to commit; its upload has all of its parts, or lacks one. -/
def commits (lacking : Bool) (c : ServerConfig) : Bool :=
  match (c.pool 1).2.pending with
  | some (.metaOp (.completeMultipartUpload key m)) =>
    (c.world.db.objects.get key.encode).any fun up => (m.parts.any fun p => !decide (p ∈ up.parts)) == lacking
  | _ => false

set_option maxRecDepth 4000 in
theorem completes_current_other_part : ∃ c, Running sampleEnv (Serves sampleEnv) (fun c _ op => KeepsParts sampleEnv c op) c ∧
    commits false c = true ∧ ConsumesParts c ∧ PartsLive c := by
  apply running_reaches 2 (uploadedMeanwhile 2 2)
    (fun c _ op => listedCheck 2 c op && (roomCheck sampleEnv c.world op && (firstCheck c.world op && foundCheck c.world op)))
    (commits false)
  · intro c _ op hq h
    rw [Bool.and_eq_true, Bool.and_eq_true, Bool.and_eq_true] at h
    exact ⟨keepsListed_of_check hq h.1, hasRoom_of_check h.2.1, marksFirst_of_check h.2.2.1, filesFound_of_check h.2.2.2⟩
  · rfl
  · rfl
  · intro c hc hq
    have hlisted := hc.mono (fun _ hp => hp) fun _ _ _ hg => hg.1
    exact ⟨hq, (completes_current sampleEnv_sane).1 hlisted, (completes_current sampleEnv_sane).2 hc⟩

set_option maxRecDepth 4000 in
/-- The part selected is replaced, and its row and its file are gone. -/
theorem a_freed_part_is_committed :
    ¬ ∀ c, Running sampleEnv (ServesOnly sampleEnv (fun _ => true) false) (fun _ _ _ => True) c → ConsumesParts c := by
  apply running_refutes 2 (uploadedMeanwhile 1 5) (fun _ _ _ => true) (commits true)
  · exact fun _ _ _ _ _ => trivial
  · rfl
  · rfl
  · intro c hq hall
    unfold commits at hq
    split at hq
    · rename_i key m hpending
      obtain ⟨k, hk⟩ := Prog.exists_call hpending
      obtain ⟨up, hup, hlacks⟩ := (Option.any_eq_true _ _).mp hq
      obtain ⟨p, hp, hnot⟩ := List.any_eq_true.mp (beq_iff_eq.mp hlacks)
      simp [hall 1 key m k hk up hup p hp] at hnot
    · cases hq

end S3lite
