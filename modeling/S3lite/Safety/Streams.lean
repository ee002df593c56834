/-
  S3lite.Safety.Streams — the steps of the part store, between those of other requests.

  Any number of requests and sweeps run at once, each writing, reading and deleting part files
  step by step, and stop anywhere.
  - `Backs`: the disk holds what a world of the atomic operations holds. A file that is being
    written has no name and one writer; one that has a name keeps its contents.
  - `Backs.step`: a write takes effect where it finds the part or renames its file, a read where
    it opens the part, a deletion where it unlinks it.
  - `streams_refined`: what such runs answer, runs of the atomic operations answer, if a file is never
    renamed over one with other contents, and every request stands at the same place in both.
-/
import S3lite.Safety.Untorn
import S3lite.Storage.PartStore

namespace S3lite

namespace Held

def file : Held → Option Nat
  | idle => none
  | writing file _ => some file
  | reading file _ => some file

/-- What an operation holds is as it knows it. -/
def On (d : Disk) : Held → Prop
  | idle => True
  | writing file data => file < d.created ∧ d.contents file = data ∧ ∀ hash, d.parts.get hash ≠ some file
  | reading file data => file < d.created ∧ d.contents file = data

variable {d d' : Disk} {g : Held}

theorem On.lt (h : g.On d) {f : Nat} (hf : g.file = some f) : f < d.created := by
  cases g with
  | idle => cases hf
  | writing f' data =>
    cases hf
    exact h.1
  | reading f' data =>
    cases hf
    exact h.1

/-- It is so on another disk where the file has these contents, and no name if it is being written. -/
theorem On.kept (h : g.On d) (hcreated : d.created ≤ d'.created) (hcontents : ∀ f, g.file = some f → d'.contents f = d.contents f)
    (hunnamed : ∀ f data, g = .writing f data → ∀ hash, d'.parts.get hash ≠ some f) : g.On d' := by
  cases g with
  | idle => trivial
  | writing f data => exact ⟨Nat.lt_of_lt_of_le h.1 hcreated, (hcontents f rfl).trans h.2.1, hunnamed f data rfl⟩
  | reading f data => exact ⟨Nat.lt_of_lt_of_le h.1 hcreated, (hcontents f rfl).trans h.2⟩

theorem On.unnamed (h : g.On d) {f : Nat} {data : Bytes} (hg : g = .writing f data) (hash : Hash) : d.parts.get hash ≠ some f := by
  subst hg
  exact h.2.2 hash

end Held

/-- The disk holds what the world does: each part is the contents of its file. -/
structure Backs (d : Disk) (w : World) (gs : Nat → Held) : Prop where
  db : w.db = d.db
  clock : w.clock = d.clock
  uuids : w.uuids = d.uuids
  files : ∀ hash, w.files.get hash = (d.parts.get hash).map d.contents
  named : ∀ hash file, d.parts.get hash = some file → file < d.created
  held : ∀ i, (gs i).On d
  /-- Nobody else has a file that is being written. -/
  alone : ∀ i j file data, gs i = .writing file data → (gs j).file = some file → j = i

section
variable {env : Env} {d : Disk} {w : World} {gs : Nat → Held} {i : Nat} {g : Held} {file : Nat} {data : Bytes} {hash : Hash}

theorem Backs.world (h : Backs d w gs) : w = ⟨d.db, w.files, d.clock, d.uuids⟩ := by
  rw [← h.db, ← h.clock, ← h.uuids]

/-- Operation `i` holds something else. -/
theorem Backs.hold (h : Backs d w gs) (hon : g.On d)
    (hothers : ∀ j file data, j ≠ i → gs j = .writing file data → g.file ≠ some file)
    (hown : ∀ j file data, j ≠ i → g = .writing file data → (gs j).file ≠ some file) : Backs d w (Function.update gs i g) := by
  refine ⟨h.db, h.clock, h.uuids, h.files, h.named, fun j => ?_, fun j k file data hj hk => ?_⟩
  · by_cases e : j = i
    · rw [e, Function.update_self]
      exact hon
    · rw [Function.update_of_ne e]
      exact h.held j
  · by_cases ej : j = i <;> by_cases ek : k = i
    · rw [ej, ek]
    · rw [ej, Function.update_self] at hj
      rw [Function.update_of_ne ek] at hk
      exact absurd hk (hown k file data ek hj)
    · rw [Function.update_of_ne ej] at hj
      rw [ek, Function.update_self] at hk
      exact absurd hk (hothers j file data ej hj)
    · rw [Function.update_of_ne ej] at hj
      rw [Function.update_of_ne ek] at hk
      exact h.alone j k file data hj hk

theorem Backs.idle (h : Backs d w gs) (i : Nat) : Backs d w (Function.update gs i .idle) :=
  h.hold trivial (fun _ _ _ _ _ e => by cases e) fun _ _ _ _ e => by cases e

theorem Backs.same (h : Backs d w gs) (hg : gs i = g) : Backs d w (Function.update gs i g) := by
  rw [← hg, Function.update_eq_self]
  exact h

/-- What is not in the part store may change in both. -/
theorem Backs.beside (h : Backs d w gs) {db : Db} {clock uuids : Nat} (tmp : List Nat) {w' : World}
    (hw : w' = ⟨db, w.files, clock, uuids⟩) :
    Backs { d with db := db, clock := clock, uuids := uuids, tmp := tmp } w' gs := by
  subst hw
  exact ⟨rfl, rfl, rfl, h.files, h.named,
    fun j => (h.held j).kept (Nat.le_refl _) (fun _ _ => rfl) fun _ _ hj => (h.held j).unnamed hj, h.alone⟩

/-- The contents of the file that is being written change. -/
theorem Backs.append (h : Backs d w gs) (hg : gs i = .writing file data) (chunk : Bytes) :
    Backs { d with contents := Function.update d.contents file (d.contents file ++ chunk) } w
      (Function.update gs i (.writing file (data ++ chunk))) := by
  obtain ⟨hlt, hdata, hunnamed⟩ : (Held.writing file data).On d := hg ▸ h.held i
  have hother : ∀ x, x ≠ file → Function.update d.contents file (d.contents file ++ chunk) x = d.contents x :=
    fun x hx => Function.update_of_ne hx _ _
  refine ⟨h.db, h.clock, h.uuids, fun x => ?_, h.named, fun j => ?_, fun j k f bytes hj hk => ?_⟩
  · rw [h.files]
    cases hx : d.parts.get x with
    | none => rfl
    | some f => exact congrArg some (hother f fun e => hunnamed x (e ▸ hx)).symm
  · by_cases e : j = i
    · rw [e, Function.update_self]
      refine ⟨hlt, ?_, hunnamed⟩
      show Function.update d.contents file (d.contents file ++ chunk) file = data ++ chunk
      rw [Function.update_self, hdata]
    · rw [Function.update_of_ne e]
      have hfile : ∀ f, (gs j).file = some f → f ≠ file := fun f hf hff => e (h.alone i j file data hg (hff ▸ hf))
      exact (h.held j).kept (Nat.le_refl _) (fun f hf => hother f (hfile f hf)) fun f bytes hj => (h.held j).unnamed hj
  · -- the same files are held by the same operations
    have hfile : ∀ j, (Function.update gs i (.writing file (data ++ chunk)) j).file = (gs j).file := by
      intro j
      by_cases e : j = i
      · rw [e, Function.update_self, hg]
        rfl
      · rw [Function.update_of_ne e]
    rw [hfile] at hk
    by_cases e : j = i
    · rw [e, Function.update_self] at hj
      cases hj
      exact e ▸ h.alone i k file data hg hk
    · rw [Function.update_of_ne e] at hj
      exact h.alone j k f bytes hj hk

theorem Backs.create (h : Backs d w gs) (i : Nat) :
    Backs { d with created := d.created + 1, contents := Function.update d.contents d.created [], tmp := d.created :: d.tmp } w
      (Function.update gs i (.writing d.created [])) := by
  have hother : ∀ x, x < d.created → Function.update d.contents d.created [] x = d.contents x :=
    fun x hx => Function.update_of_ne (Nat.ne_of_lt hx) _ _
  refine Backs.hold ⟨h.db, h.clock, h.uuids, fun x => ?_, fun x f hx => Nat.lt_succ_of_lt (h.named x f hx), fun j => ?_, h.alone⟩
    ⟨Nat.lt_succ_self _, Function.update_self .., fun x hx => Nat.lt_irrefl _ (h.named x _ hx)⟩ (fun j f bytes _ hj hf => ?_)
    fun j f bytes _ hj hf => ?_
  · rw [h.files]
    cases hx : d.parts.get x with
    | none => rfl
    | some f => exact congrArg some (hother f (h.named x f hx)).symm
  · exact (h.held j).kept (Nat.le_succ _) (fun f hf => hother f ((h.held j).lt hf)) fun f bytes hj => (h.held j).unnamed hj
  · cases hf
    exact Nat.lt_irrefl _ ((h.held j).lt (by rw [hj]; rfl))
  · cases hj
    exact Nat.lt_irrefl _ ((h.held j).lt hf)

/-- The written file gets its name, and the world its content. -/
theorem Backs.rename (h : Backs d w gs) (hg : gs i = .writing file data)
    (hsame : ∀ old, d.parts.get (env.blake3 data) = some old → d.contents old = data) :
    Backs { d with tmp := d.tmp.erase file, parts := d.parts.insert (env.blake3 data) file }
      { w with files := (writePart env w.files data).2 } (Function.update gs i .idle) := by
  obtain ⟨hlt, hdata, -⟩ : (Held.writing file data).On d := hg ▸ h.held i
  have hidle := h.idle i
  refine ⟨h.db, h.clock, h.uuids, fun x => ?_, fun x f hx => ?_, fun j => ?_, hidle.alone⟩
  · show (writePart env w.files data).2.get x = ((d.parts.insert (env.blake3 data) file).get x).map d.contents
    rw [writePart_get, Table.get_insert, h.files]
    by_cases hx : x = env.blake3 data
    · rw [if_pos hx, Option.map_some, hdata]
      cases hold : d.parts.get x with
      | none => rw [if_pos ⟨hx, rfl⟩]
      | some old =>
        rw [if_neg fun e => by cases e.2]
        exact congrArg some (hsame old (hx ▸ hold))
    · rw [if_neg hx, if_neg fun e => hx e.1]
  · rw [Table.get_insert] at hx
    split at hx
    · cases hx
      exact hlt
    · exact h.named x f hx
  · refine (hidle.held j).kept (Nat.le_refl _) (fun _ _ => rfl) fun f bytes hj x hx => ?_
    rw [Table.get_insert] at hx
    split at hx
    · -- another file is being written
      cases hx
      by_cases e : j = i
      · rw [e, Function.update_self] at hj
        cases hj
      · rw [Function.update_of_ne e] at hj
        exact e (h.alone i j file data hg (by rw [hj]; rfl))
    · exact (hidle.held j).unnamed hj x hx

theorem Backs.unlink (h : Backs d w gs) (hash : Hash) :
    Backs { d with parts := d.parts.erase hash } { w with files := w.files.erase hash } gs := by
  have hget : ∀ x f, (d.parts.erase hash).get x = some f → d.parts.get x = some f := by
    intro x f hx
    rw [Table.get_erase] at hx
    split at hx
    · cases hx
    · exact hx
  refine ⟨h.db, h.clock, h.uuids, fun x => ?_, fun x f hx => h.named x f (hget x f hx), fun j => ?_, h.alone⟩
  · show (w.files.erase hash).get x = ((d.parts.erase hash).get x).map d.contents
    rw [Table.get_erase, Table.get_erase, h.files]
    split <;> rfl
  · exact (h.held j).kept (Nat.le_refl _) (fun _ _ => rfl) fun f bytes hj x hx => (h.held j).unnamed hj x (hget x f hx)

/-- The part is opened, or there is none. -/
theorem Backs.opened (h : Backs d w gs) (i : Nat) (hfile : d.parts.get hash = some file) :
    Backs d w (Function.update gs i (.reading file (d.contents file))) := by
  refine h.hold ⟨h.named hash file hfile, rfl⟩ (fun j f bytes _ hj hf => ?_) fun j f bytes _ hj _ => by cases hj
  cases hf
  exact (h.held j).unnamed hj hash hfile

end

/-! ## Every step -/

/-- Transactions meet the condition, and no file is renamed over one with other contents. -/
def DiskFits (Room : Db → MetaOp → Prop) (d : Disk) : DiskOp → Prop
  | .metaOp op => Room d.db op
  | .rename tmp hash => ∀ old, d.parts.get hash = some old → d.contents old = d.contents tmp
  | _ => True

/-- Transactions meet the condition. -/
def WorldFits (Room : Db → MetaOp → Prop) (w : World) : Op → Prop
  | .metaOp op => Room w.db op
  | _ => True

section
variable {env : Env} {Room : Db → MetaOp → Prop} {d : Disk} {w : World} {gs : Nat → Held} {i : Nat}

theorem Backs.write (h : Backs d w gs) {data : Bytes} {result : Option PartWriteResult} {c : DiskOp}
    (hok : Held.Writes env data (gs i) result c) (hfits : DiskFits Room d c) :
    ∃ g' result', (g', result') = Held.written env data (gs i) result c (execDisk env c d).1 ∧
      (result' = result ∧ Backs (execDisk env c d).2 w (Function.update gs i g') ∨
        result = none ∧ result' = some (exec env (.writeBytes data) w).1 ∧
          Backs (execDisk env c d).2 (exec env (.writeBytes data) w).2 (Function.update gs i g')) := by
  refine ⟨_, _, rfl, ?_⟩
  unfold Held.Writes at hok
  split at hok
  · -- the temporary file is new
    exact Or.inl ⟨rfl, h.create i⟩
  · rename_i file sofar tmp chunk hg
    subst hok
    rw [hg]
    exact Or.inl ⟨rfl, h.append hg chunk⟩
  · rename_i file sofar hash hg
    obtain ⟨rfl, rfl⟩ := hok
    have hfile := h.files (env.blake3 sofar)
    rw [hg]
    cases hpart : d.parts.get (env.blake3 sofar) with
    | none =>
      simp only [execDisk, hpart, Option.isSome_none]
      exact Or.inl ⟨rfl, h.same hg⟩
    | some old =>
      -- the part is there already
      rw [hpart] at hfile
      have hsome : (w.files.get (env.blake3 sofar)).isSome := by rw [hfile]; rfl
      have hwrite : (exec env (.writeBytes sofar) w) = (writeResult env sofar, w) := by
        simp only [exec, writePart, hsome, if_true, writeResult]
      simp only [execDisk, hpart, Option.isSome_some, if_true, hwrite]
      exact Or.inr ⟨trivial, trivial, h.idle i⟩
  · rename_i file sofar tmp hash hg
    obtain ⟨rfl, rfl, rfl⟩ := hok
    have hdata : d.contents tmp = sofar := ((hg ▸ h.held i : (Held.writing tmp sofar).On d)).2.1
    rw [hg]
    exact Or.inr ⟨rfl, rfl, h.rename hg fun old hold => (hfits old hold).trans hdata⟩
  · rename_i r tmp hg
    rw [hg]
    exact Or.inl ⟨rfl, (h.idle i).beside _ h.world⟩
  · cases hok

theorem Backs.read (h : Backs d w gs) {x : Hash} {result : Option (Option Bytes)} {c : DiskOp} (hok : Held.Reads x (gs i) result c) :
    ∃ g' result', Held.Opened (gs i) result c (execDisk env c d).1 g' result' ∧
      (result' = result ∧ Backs (execDisk env c d).2 w (Function.update gs i g') ∨
        result = none ∧ result' = some (exec env (.readPart x) w).1 ∧ Backs (execDisk env c d).2 w (Function.update gs i g')) := by
  unfold Held.Reads at hok
  split at hok
  · rename_i hash hg
    subst hok
    show ∃ g' result', Held.Opened _ _ (.openRead hash) (d.parts.get hash) g' result' ∧ (_ ∨ _ ∧ result' = some (w.files.get hash) ∧ _)
    rw [h.files]
    cases hpart : d.parts.get hash with
    | none => exact ⟨.idle, some none, ⟨rfl, rfl⟩, Or.inr ⟨rfl, rfl, h.idle i⟩⟩
    | some file => exact ⟨_, _, ⟨d.contents file, rfl, rfl⟩, Or.inr ⟨rfl, rfl, h.opened i hpart⟩⟩
  · rename_i file data r f hg
    subst hok
    have hdata : d.contents f = data := ((hg ▸ h.held i : (Held.reading f data).On d)).2
    rw [hg]
    exact ⟨_, _, ⟨hdata, rfl, rfl⟩, Or.inl ⟨rfl, h.same hg⟩⟩
  · cases hok

theorem Backs.step (h : Backs d w gs) (op : Op) {result : Option op.Res} {c : DiskOp} (hok : (contract env op).ok (gs i) result c)
    (hfits : DiskFits Room d c) :
    ∃ g' result', (contract env op).moves (gs i) result c (execDisk env c d).1 g' result' ∧
      (result' = result ∧ Backs (execDisk env c d).2 w (Function.update gs i g') ∨
        result = none ∧ result' = some (exec env op w).1 ∧ WorldFits Room w op ∧
          Backs (execDisk env c d).2 (exec env op w).2 (Function.update gs i g')) := by
  cases op with
  | writeBytes data =>
    obtain ⟨g', result', hmoves, hcase⟩ := h.write hok hfits
    exact ⟨g', result', hmoves, hcase.imp_right fun hr => ⟨hr.1, hr.2.1, trivial, hr.2.2⟩⟩
  | readPart hash =>
    obtain ⟨g', result', hmoves, hcase⟩ := h.read hok
    exact ⟨g', result', hmoves, hcase.imp_right fun hr => ⟨hr.1, hr.2.1, trivial, hr.2.2⟩⟩
  | deletePart hash =>
    obtain ⟨hg, rfl, rfl⟩ := hok
    exact ⟨.idle, some (), ⟨rfl, rfl, rfl⟩, Or.inr ⟨rfl, rfl, trivial, (h.unlink hash).idle i⟩⟩
  | metaOp op =>
    obtain ⟨hg, rfl, rfl⟩ := hok
    have hexec : exec env (.metaOp op) w = ((execDisk env (.metaOp op) d).1,
        ⟨(execDisk env (.metaOp op) d).2.db, w.files, d.clock + 2, d.uuids⟩) := by
      rw [h.world]
      rfl
    have hroom : Room w.db op := h.db ▸ hfits
    refine ⟨.idle, _, ⟨rfl, rfl, rfl⟩, Or.inr ⟨rfl, ?_, hroom, (h.idle i).beside d.tmp ?_⟩⟩
    · rw [hexec]
      rfl
    · rw [hexec]
      rfl
  | nowUtc =>
    obtain ⟨hg, rfl, rfl⟩ := hok
    refine ⟨.idle, _, ⟨rfl, rfl, rfl⟩, Or.inr ⟨rfl, ?_, trivial, (h.idle i).beside d.tmp ?_⟩⟩
    · rw [h.world]
      rfl
    · rw [h.world]
      rfl
  | newUuid =>
    obtain ⟨hg, rfl, rfl⟩ := hok
    refine ⟨.idle, _, ⟨rfl, rfl, rfl⟩, Or.inr ⟨rfl, ?_, trivial, (h.idle i).beside d.tmp ?_⟩⟩
    · rw [h.world]
      rfl
    · rw [h.world]
      rfl

theorem Backs.empty : Backs .empty .empty fun _ => .idle :=
  ⟨rfl, rfl, rfl, fun _ => rfl, fun _ _ h => (nomatch h), fun _ => trivial, fun _ _ _ _ h => (nomatch h)⟩

/-- The configurations reached when the operations of requests and sweeps take place step by step on
    the disk. -/
abbrev DiskRunning (env : Env) (Room : Db → MetaOp → Prop) : Config DiskOp DiskOp.Res Disk Unit → Prop :=
  Reach (execDisk env) (.only fun _ => True) () (fun p => ∃ q, Serves env q ∧ p = q.lower (implement env))
    (fun c _ op => DiskFits Room c.world op) .empty

section
variable {c : Config DiskOp DiskOp.Res Disk Unit}

theorem DiskRunning.backed (h : DiskRunning env Room c) :
    ∃ a gs, Running env (Serves env) (fun a _ op => WorldFits Room a.world op) a ∧ Backs c.world a.world gs ∧
      ∀ i, Prog.Stage (implement env) (contract env) .idle (a.pool i).2 (c.pool i).2 (gs i) :=
  Reach.lowered (R := fun w d gs => Backs d w gs) delivers_implement Backs.empty
    (fun _ _ _ i hb => hb.idle i) (fun op _ _ _ _ _ _ hb hok hfits => hb.step op hok hfits) h

/-- Programs under their labels, whose answers are written down. -/
abbrev DiskSendOp := SendOp Caller DiskOp (Except Failure Response)

abbrev DiskSendRes : DiskSendOp → Type := SendOp.Res DiskOp.Res

/-- The configurations reached on the disk, with every answer written down. -/
abbrev DiskAnswering (env : Env) (Room : Db → MetaOp → Prop) :
    Config DiskSendOp DiskSendRes (Watched Caller Disk (Except Failure Response)) Unit → Prop :=
  Reach (watch (execDisk env)) (.only fun _ => True) () (fun p => ∃ q, Answers env q ∧ p = q.lower (Prog.implementing (implement env)))
    (fun c _ o => o.Meets (DiskFits Room) c.world) ⟨.empty, [], []⟩

/-- Those reached by atomic operations. -/
abbrev AnsweringIn (env : Env) (Room : Db → MetaOp → Prop) :
    Config ServerOp ServerRes (Watched Caller World (Except Failure Response)) Unit → Prop :=
  Reach (watch (exec env)) (.only fun _ => True) () (Answers env) (fun a _ o => o.Meets (WorldFits Room) a.world) ⟨.empty, [], []⟩

/-- Where a request or sweep on the disk is, against one of atomic operations. -/
abbrev DiskStage (env : Env) : Prog ServerOp ServerRes Unit → Prog DiskSendOp DiskSendRes Unit → Held → Prop :=
  Prog.Stage (Prog.implementing (implement env)) (Prog.Contract.watched (contract env)) .idle

/-- A run on the disk is one of the atomic operations: the same requests got the same answers in the
    same order, and each that is being served is at the same place. -/
theorem streams_refined {c : Config DiskSendOp DiskSendRes (Watched Caller Disk (Except Failure Response)) Unit}
    (h : DiskAnswering env Room c) :
    ∃ a gs, AnsweringIn env Room a ∧ Backs c.world.world a.world.world gs ∧ a.world.sent = c.world.sent ∧
      ∀ i, DiskStage env (a.pool i).2 (c.pool i).2 (gs i) :=
  Reach.lowered_answers (R := fun w d gs => Backs d w gs) delivers_implement Backs.empty
    (fun _ _ _ i hb => hb.idle i) (fun op _ _ _ _ _ _ hb hok hfits => hb.step op hok hfits) h

/-- At every moment, also after any crash, a file under the name of a part is whole. -/
theorem parts_whole (h : DiskRunning env Room c) {hash : Hash} {file : Nat}
    (hfile : c.world.parts.get hash = some file) : env.blake3 (c.world.contents file) = hash := by
  obtain ⟨a, gs, ha, hbacks, -⟩ := h.backed
  have hnamed : NamedFiles env a.world :=
    Reach.world (fun _ _ hnone => by cases hnone) (fun op _ hnamed => hnamed.step op) ha
  refine hnamed hash _ ?_
  rw [hbacks.files, hfile]
  rfl

end

end

/-! ## Two writers of one part -/

/-- Both look before either has renamed; the second file replaces the first. -/
def twoWriters : List (Move DiskOp DiskOp.Res) :=
  let put : DiskProg Unit :=
    (Handler.discard (Request.handler sampleEnv (.putObject (str "bucket") (str "k") [] (str "a")))).lower (implement sampleEnv)
  let create : DiskProg Unit := (Handler.discard (Request.handler sampleEnv (.createBucket (str "bucket") []))).lower (implement sampleEnv)
  [.start 0 create, .steps 0 2, .start 0 put, .steps 0 4, .start 1 put, .steps 1 4, .steps 0 1, .steps 1 2]

/-- A rename replaces nothing but the same bytes. -/
def renamesSame (d : Disk) : DiskOp → Bool
  | .rename tmp hash => (d.parts.get hash).all fun old => decide (d.contents old = d.contents tmp)
  | _ => true

theorem diskFits_of_check {d : Disk} {op : DiskOp} (h : renamesSame d op = true) : DiskFits (fun _ _ => True) d op := by
  cases op with
  | rename tmp hash => exact fun old hold => of_decide_eq_true ((Option.all_eq_true _ _).mp h old hold)
  | _ => trivial

theorem twoWriters_run : ∃ c, DiskRunning sampleEnv (fun _ _ => True) c ∧
    decide (c.world.parts.get (sampleEnv.blake3 (str "a")) = some 1) = true := by
  have hserves : ∀ r : Request, r.WellFormed → Serves sampleEnv (r.handler sampleEnv).discard := fun r hr => Or.inl ⟨r, hr, rfl⟩
  have hplay : ((⟨.empty, fun _ => ((), .ret ())⟩ : Config DiskOp DiskOp.Res Disk Unit).play (execDisk sampleEnv) (.only fun _ => True) ()
      (fun c _ op => renamesSame c.world op) twoWriters).any (fun c => decide (c.world.parts.get (sampleEnv.blake3 (str "a")) = some 1)) = true := by rfl
  refine Reach.exists_play (n := 2) (fun _ _ _ _ h => diskFits_of_check h) (fun m hm => ?_) hplay
  simp only [twoWriters, List.mem_cons, List.not_mem_nil, or_false] at hm
  rcases hm with rfl | rfl | rfl | rfl | rfl | rfl | rfl | rfl
  · exact ⟨by decide, _, hserves _ (by decide), rfl⟩
  · exact (by decide : 0 < 2)
  · exact ⟨by decide, _, hserves _ (by decide), rfl⟩
  · exact (by decide : 0 < 2)
  · exact ⟨by decide, _, hserves _ (by decide), rfl⟩
  · exact (by decide : 1 < 2)
  · exact (by decide : 0 < 2)
  · exact (by decide : 1 < 2)

/-- Both look before either has renamed, and the second to rename answers first. -/
def twoAnswers : List (Move DiskSendOp DiskSendRes) :=
  let client (n : Nat) (r : Request) : Move DiskSendOp DiskSendRes :=
    .start n ((Prog.answering (Caller.client n r) (r.handler sampleEnv)).lower (Prog.implementing (implement sampleEnv)))
  let put := Request.putObject (str "bucket") (str "k") [] (str "a")
  [client 0 (.createBucket (str "bucket") []), .steps 0 3, client 1 put, .steps 1 4, client 2 put, .steps 2 4, .steps 1 1, .steps 2 4,
    .steps 1 3]

/-- Every operation of a program does. -/
def sendsSame (c : Config DiskSendOp DiskSendRes (Watched Caller Disk (Except Failure Response)) Unit) (_ : Nat) : DiskSendOp → Bool
  | .act _ op => renamesSame c.world.world op
  | .send .. => true

theorem meets_of_check {c : Config DiskSendOp DiskSendRes (Watched Caller Disk (Except Failure Response)) Unit} {i : Nat}
    {o : DiskSendOp} (h : sendsSame c i o = true) : o.Meets (DiskFits fun _ _ => True) c.world := by
  cases o with
  | act l op => exact diskFits_of_check h
  | send => trivial

/-- The part is the file of the second to rename, and both PUTs were answered with 200. -/
def bothAnswered (w : Watched Caller Disk (Except Failure Response)) : Bool :=
  decide (w.world.parts.get (sampleEnv.blake3 (str "a")) = some 1) &&
    decide (w.sent.filterMap (fun
      | (.client n _, .ok resp) => some (n, resp.status)
      | _ => none) = [(1, 200), (2, 200), (0, 200)])

theorem streams_refined_two_writers : ∃ c a gs, DiskAnswering sampleEnv (fun _ _ => True) c ∧ bothAnswered c.world = true ∧
    AnsweringIn sampleEnv (fun _ _ => True) a ∧ Backs c.world.world a.world.world gs ∧ a.world.sent = c.world.sent ∧
      ∀ i, DiskStage sampleEnv (a.pool i).2 (c.pool i).2 (gs i) := by
  have hplay : ((⟨⟨.empty, [], []⟩, fun _ => ((), .ret ())⟩ :
      Config DiskSendOp DiskSendRes (Watched Caller Disk (Except Failure Response)) Unit).play
        (watch (execDisk sampleEnv)) (.only fun _ => True) () sendsSame twoAnswers).any (fun c => bothAnswered c.world) = true := by rfl
  obtain ⟨c, hc, hboth⟩ : ∃ c, DiskAnswering sampleEnv (fun _ _ => True) c ∧ bothAnswered c.world = true := by
    refine Reach.exists_play (n := 3) (fun _ _ _ _ h => meets_of_check h) (fun m hm => ?_) hplay
    simp only [twoAnswers, List.mem_cons, List.not_mem_nil, or_false] at hm
    rcases hm with rfl | rfl | rfl | rfl | rfl | rfl | rfl | rfl | rfl
    · exact ⟨by decide, _, Or.inl ⟨0, _, by decide, rfl⟩, rfl⟩
    · exact (by decide : 0 < 3)
    · exact ⟨by decide, _, Or.inl ⟨1, _, by decide, rfl⟩, rfl⟩
    · exact (by decide : 1 < 3)
    · exact ⟨by decide, _, Or.inl ⟨2, _, by decide, rfl⟩, rfl⟩
    · exact (by decide : 2 < 3)
    · exact (by decide : 1 < 3)
    · exact (by decide : 2 < 3)
    · exact (by decide : 1 < 3)
  obtain ⟨a, gs, ha, hbacks, hsent, hstage⟩ := streams_refined hc
  exact ⟨c, a, gs, hc, hboth, ha, hbacks, hsent, hstage⟩

theorem parts_whole_two_writers : ∃ c, DiskRunning sampleEnv (fun _ _ => True) c ∧
    sampleEnv.blake3 (c.world.contents 1) = sampleEnv.blake3 (str "a") := by
  obtain ⟨c, hc, hfile⟩ := twoWriters_run
  exact ⟨c, hc, parts_whole hc (of_decide_eq_true hfile)⟩

end S3lite
