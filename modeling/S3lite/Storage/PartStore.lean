/-
  S3lite.Storage.PartStore — the part store over the files of a disk (src/storage/parts.rs).

  A file has contents of its own and may have a name under `tmp/` or `parts/`; an open file keeps
  its contents when its name is gone. Each operation of the file system is one step
  (`DiskOp`), as is one of the metadata store. The name drawn for a temporary file is new, and
  stands for the file. I/O does not fail, and folders are made before they are needed.

  `implement` is what the handlers' operations are made of: `write_bytes` creates a temporary
  file, appends to it chunk by chunk, looks whether the part exists, and removes or renames;
  a read opens the part and reads it to the end.
-/
import S3lite.Base.Lowering
import S3lite.Server.World

namespace S3lite

inductive DiskOp where
  | metaOp (op : MetaOp)
  | createTmp
  | writeAll (tmp : Nat) (chunk : Bytes)
  | metadata (hash : Hash)
  | removeTmp (tmp : Nat)
  | rename (tmp : Nat) (hash : Hash)
  | openRead (hash : Hash)
  | readToEnd (file : Nat)
  | removeFile (hash : Hash)
  | nowUtc
  | newUuid

@[reducible] def DiskOp.Res : DiskOp → Type
  | metaOp op => op.Res
  | createTmp => Nat
  | writeAll .. | removeTmp _ | rename .. | removeFile _ => Unit
  | metadata _ => Bool
  | openRead _ => Option Nat
  | readToEnd _ => Bytes
  | nowUtc => Time
  | newUuid => Str

structure Disk where
  db : Db
  clock : Nat
  uuids : Nat
  /-- How many files were created. -/
  created : Nat
  contents : Nat → Bytes
  tmp : List Nat
  parts : Table Hash Nat

def Disk.empty : Disk := ⟨.empty, 0, 0, 0, fun _ => [], [], .empty⟩

def execDisk (env : Env) : (op : DiskOp) → Disk → op.Res × Disk
  | .metaOp op, d =>
    let r := op.exec (env.now d.clock) (env.now (d.clock + 1)) d.db
    (r.1, { d with db := r.2, clock := d.clock + 2 })
  | .createTmp, d =>
    (d.created, { d with created := d.created + 1, contents := Function.update d.contents d.created [], tmp := d.created :: d.tmp })
  | .writeAll tmp chunk, d => ((), { d with contents := Function.update d.contents tmp (d.contents tmp ++ chunk) })
  | .metadata hash, d => ((d.parts.get hash).isSome, d)
  | .removeTmp tmp, d => ((), { d with tmp := d.tmp.erase tmp })
  | .rename tmp hash, d => ((), { d with tmp := d.tmp.erase tmp, parts := d.parts.insert hash tmp })
  | .openRead hash, d => (d.parts.get hash, d)
  | .readToEnd file, d => (d.contents file, d)
  | .removeFile hash, d => ((), { d with parts := d.parts.erase hash })
  | .nowUtc, d => (env.now d.clock, { d with clock := d.clock + 1 })
  | .newUuid, d => (env.uuid d.uuids, { d with uuids := d.uuids + 1 })

abbrev DiskProg (α : Type) : Type := Prog DiskOp DiskOp.Res α

namespace PartStore

/-- What both hashers were fed, and its size. -/
structure Hashed where
  fed : Bytes
  size : Nat

/-- The end of `write_stream`: the part under its hash, if there is none. -/
def finish (env : Env) (tmp : Nat) (h : Hashed) : DiskProg PartWriteResult :=
  let hash := env.blake3 h.fed
  let result : PartWriteResult := ⟨hash, env.md5 h.fed, h.size⟩
  .call (.metadata hash) fun found =>
    if found then .call (.removeTmp tmp) fun _ => .ret result
    else .call (.rename tmp hash) fun _ => .ret result

/-- The loop of `write_stream` over the chunks that the reader gives. -/
def copyChunks (env : Env) (tmp : Nat) : List Bytes → Hashed → DiskProg PartWriteResult
  | [], h => finish env tmp h
  | chunk :: chunks, h => .call (.writeAll tmp chunk) fun _ => copyChunks env tmp chunks ⟨h.fed ++ chunk, h.size + chunk.length⟩

def writeStream (env : Env) (reader : List Bytes) : DiskProg PartWriteResult :=
  .call .createTmp fun tmp => copyChunks env tmp reader ⟨[], 0⟩

/-- The size of the buffer. -/
def bufLen : Nat := 64 * 1024

/-- What reading a slice gives: full buffers, then what is left. -/
def sliceReader : Nat → Bytes → List Bytes
  | 0, _ => []
  | fuel + 1, data => if data = [] then [] else data.take bufLen :: sliceReader fuel (data.drop bufLen)

def writeBytes (env : Env) (data : Bytes) : DiskProg PartWriteResult := writeStream env (sliceReader data.length data)

/-- `open_read`, then `read_to_end`. -/
def readPart (hash : Hash) : DiskProg (Option Bytes) :=
  .call (.openRead hash) fun
    | none => .ret none
    | some file => .call (.readToEnd file) fun bytes => .ret (some bytes)

def delete (hash : Hash) : DiskProg Unit := .call (.removeFile hash) .ret

theorem flatten_sliceReader {fuel : Nat} {data : Bytes} (h : data.length ≤ fuel) : (sliceReader fuel data).flatten = data := by
  induction fuel generalizing data with
  | zero => rw [sliceReader, List.length_eq_zero_iff.mp (Nat.le_zero.mp h), List.flatten_nil]
  | succ fuel ih =>
    rw [sliceReader]
    split
    · rename_i hnil
      rw [hnil, List.flatten_nil]
    · rename_i hne
      have hpos := List.length_pos_iff.mpr hne
      have hrest : (data.drop bufLen).length ≤ fuel := by
        have hbuf : 0 < bufLen := by decide
        rw [List.length_drop]
        omega
      rw [List.flatten_cons, ih hrest, List.take_append_drop]

end PartStore

/-- The operations of the handlers, by those of the disk. -/
def implement (env : Env) : (op : Op) → DiskProg op.Res
  | .metaOp op => .call (.metaOp op) .ret
  | .writeBytes data => PartStore.writeBytes env data
  | .readPart hash => PartStore.readPart hash
  | .deletePart hash => PartStore.delete hash
  | .nowUtc => .call .nowUtc .ret
  | .newUuid => .call .newUuid .ret

/-! ## What the steps of an implementation do -/

/-- The file that an operation is working on, with what it knows to be in it. -/
inductive Held where
  | idle
  | writing (file : Nat) (data : Bytes)
  | reading (file : Nat) (data : Bytes)

namespace Held

/-- Only the writer appends, and a part gets its name when all of it is there. -/
def Writes (env : Env) (data : Bytes) : Held → Option PartWriteResult → DiskOp → Prop
  | .idle, none, .createTmp => True
  | .writing file _, none, .writeAll tmp _ => tmp = file
  | .writing _ sofar, none, .metadata hash => sofar = data ∧ hash = env.blake3 data
  | .writing file sofar, none, .rename tmp hash => tmp = file ∧ sofar = data ∧ hash = env.blake3 data
  | .idle, some _, .removeTmp _ => True
  | _, _, _ => False

/-- The write takes effect when the part is found, or when it is renamed. -/
def written (env : Env) (data : Bytes) : Held → Option PartWriteResult → (c : DiskOp) → c.Res → Held × Option PartWriteResult
  | _, result, .createTmp, file => (.writing file [], result)
  | .writing file sofar, result, .writeAll _ chunk, _ => (.writing file (sofar ++ chunk), result)
  | g, result, .metadata _, found => if found then (.idle, some (writeResult env data)) else (g, result)
  | _, _, .rename .., _ => (.idle, some (writeResult env data))
  | g, result, _, _ => (g, result)

def Reads (hash : Hash) : Held → Option (Option Bytes) → DiskOp → Prop
  | .idle, none, .openRead h => h = hash
  | .reading file _, some _, .readToEnd f => f = file
  | _, _, _ => False

/-- The read takes effect when the part is opened. -/
def Opened : Held → Option (Option Bytes) → (c : DiskOp) → c.Res → Held → Option (Option Bytes) → Prop
  | _, _, .openRead _, none, g', result' => g' = .idle ∧ result' = some none
  | _, _, .openRead _, some file, g', result' => ∃ data, g' = .reading file data ∧ result' = some (some data)
  | .reading file data, result, .readToEnd _, bytes, g', result' => bytes = data ∧ g' = .reading file data ∧ result' = result
  | _, _, _, _, _, _ => False

/-- The contract of an operation that is one of the disk's. -/
def single {A : Type} (c : DiskOp) (result : c.Res → A) : Prog.Contract DiskOp DiskOp.Res Held A where
  ok := fun g r c' => g = .idle ∧ r = none ∧ c' = c
  moves := fun _ _ c' x g' r' => g' = .idle ∧ ∃ h : c' = c, r' = some (result (h ▸ x))

end Held

def contract (env : Env) : (op : Op) → Prog.Contract DiskOp DiskOp.Res Held op.Res
  | .metaOp op => Held.single (.metaOp op) id
  | .writeBytes data =>
    ⟨Held.Writes env data, fun g result c x g' result' => (g', result') = Held.written env data g result c x⟩
  | .readPart hash => ⟨Held.Reads hash, Held.Opened⟩
  | .deletePart hash => Held.single (.removeFile hash) id
  | .nowUtc => Held.single .nowUtc id
  | .newUuid => Held.single .newUuid id

section
variable {env : Env}

theorem delivers_single {A : Type} (c : DiskOp) (result : c.Res → A) :
    Prog.Delivers (Held.single c result) (.call c fun x => .ret (result x)) .idle none := by
  refine ⟨⟨rfl, rfl, rfl⟩, fun x g' result' h => ?_⟩
  obtain ⟨-, _, hresult⟩ := h
  exact hresult

theorem delivers_copyChunks (data : Bytes) (file : Nat) (chunks : List Bytes) (fed : Bytes) (h : fed ++ chunks.flatten = data) :
    Prog.Delivers (contract env (.writeBytes data)) (PartStore.copyChunks env file chunks ⟨fed, fed.length⟩) (.writing file fed) none := by
  induction chunks generalizing fed with
  | nil =>
    rw [List.flatten_nil, List.append_nil] at h
    subst h
    refine ⟨⟨rfl, rfl⟩, fun found g' result' hmoves => ?_⟩
    cases found with
    | true =>
      cases hmoves
      refine ⟨trivial, fun _ g' result' hmoves => ?_⟩
      cases hmoves
      rfl
    | false =>
      cases hmoves
      refine ⟨⟨rfl, rfl, rfl⟩, fun _ g' result' hmoves => ?_⟩
      cases hmoves
      rfl
  | cons chunk chunks ih =>
    refine ⟨rfl, fun _ g' result' hmoves => ?_⟩
    cases hmoves
    have hrest := ih (fed ++ chunk) (by rw [← h, List.flatten_cons, List.append_assoc])
    rw [List.length_append] at hrest
    exact hrest

theorem delivers_implement (op : Op) : Prog.Delivers (contract env op) (implement env op) .idle none := by
  cases op with
  | metaOp op => exact delivers_single (.metaOp op) id
  | writeBytes data =>
    refine ⟨trivial, fun file g' result' hmoves => ?_⟩
    cases hmoves
    exact delivers_copyChunks data file _ [] (PartStore.flatten_sliceReader (Nat.le_refl _))
  | readPart hash =>
    refine ⟨rfl, fun found g' result' hmoves => ?_⟩
    cases found with
    | none =>
      obtain ⟨-, rfl⟩ := hmoves
      rfl
    | some file =>
      obtain ⟨data, rfl, rfl⟩ := hmoves
      refine ⟨rfl, fun bytes g' result' hmoves => ?_⟩
      obtain ⟨rfl, -, rfl⟩ := hmoves
      rfl
  | deletePart hash => exact delivers_single (.removeFile hash) id
  | nowUtc => exact delivers_single .nowUtc id
  | newUuid => exact delivers_single .newUuid id

end

end S3lite
