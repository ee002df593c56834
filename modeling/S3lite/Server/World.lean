/-
  S3lite.Server.World — what the handlers act on: the metadata store, the part files, the
  clock and the source of version ids.

  Every operation is one step (`exec`). `write_bytes` streams into its own temporary file
  and ends in one step that drops it when the part exists and renames it otherwise; a part
  is read in one step, since an open file outlives its unlinking. I/O does not fail, and
  events are fire-and-forget: no handler depends on one.

  What the repository takes from its dependencies (hashes, encodings, dates, XML) is a
  parameter (`Env`), as are the clock's readings and the ids drawn.
-/
import S3lite.Storage.Steps

namespace S3lite

structure DefaultRetentionXml where
  mode : Option Str
  days : Option Nat
  years : Option Nat
  deriving DecidableEq

/-- `ObjectLockConfigurationXml`; `rule` is `rule.default_retention`. -/
structure ObjectLockConfigurationXml where
  objectLockEnabled : Option Str
  rule : Option (Option DefaultRetentionXml)
  deriving DecidableEq

/-- `LifecycleRuleXml`; `filter` is the optional `filter.prefix`, an action its days. -/
structure LifecycleRuleXml where
  id : Option Str
  status : Str
  filter : Option (Option Str)
  expiration : Option Nat
  noncurrentVersionExpiration : Option Nat
  abortIncompleteMultipartUpload : Option Nat
  deriving DecidableEq

structure Env where
  blake3 : Bytes → Hash
  md5 : Bytes → Md5
  crc32 : Bytes → Bytes
  crc32c : Bytes → Bytes
  sha1 : Bytes → Bytes
  sha256 : Bytes → Bytes
  base64Encode : Bytes → Str
  base64Decode : Str → Option Bytes
  /-- A continuation token: base64 of the cursor's bincode, and back; the error is the answer. -/
  encodeContinuationToken : ListCursor → Str
  decodeContinuationToken : Str → Except Str ListCursor
  parseRfc3339 : Str → Option Time
  formatRfc3339 : Time → Str
  /-- `OffsetDateTime::parse` with the IMF-fixdate format. -/
  parseImfDate : Str → Option Time
  formatImfDate : Time → Str
  /-- `quick_xml::de::from_reader` at each request body's type: the value or the error's text. -/
  xmlVersioning : Bytes → Except Str (Option Str)
  xmlCompleteMultipartUpload : Bytes → Except Str (List (Nat × Str))
  xmlTagging : Bytes → Except Str (List (Str × Str))
  xmlRetention : Bytes → Except Str (Str × Str)
  xmlLegalHold : Bytes → Except Str Str
  xmlObjectLock : Bytes → Except Str ObjectLockConfigurationXml
  xmlLifecycle : Bytes → Except Str (List LifecycleRuleXml)
  xmlCors : Bytes → Except Str (List CorsRule)
  /-- The clock's readings, in order. -/
  now : Nat → Time
  /-- The ids `Uuid::new_v4().simple()` draws, in order. -/
  uuid : Nat → Str
  region : Str
  /-- A build with debug assertions and overflow checks. The handlers stop where one fails; the sums
      of the store and of the reports wrap in every build, as with overflow checks off. -/
  debug : Bool

structure PartWriteResult where
  hash : Hash
  md5 : Md5
  size : Nat
  deriving DecidableEq

structure World where
  db : Db
  files : Table Hash Bytes
  clock : Nat
  uuids : Nat

def World.empty : World := ⟨.empty, .empty, 0, 0⟩

inductive Op where
  | metaOp (op : MetaOp)
  | writeBytes (data : Bytes)
  | readPart (hash : Hash)
  | deletePart (hash : Hash)
  | nowUtc
  | newUuid

@[reducible] def Op.Res : Op → Type
  | metaOp op => op.Res
  | writeBytes _ => PartWriteResult
  | readPart _ => Option Bytes
  | deletePart _ => Unit
  | nowUtc => Time
  | newUuid => Str

/-- `PartStore::write_bytes`: what it stores under the hash and returns. -/
def writePart (env : Env) (files : Table Hash Bytes) (data : Bytes) : PartWriteResult × Table Hash Bytes :=
  let hash := env.blake3 data
  (⟨hash, env.md5 data, data.length⟩, if (files.get hash).isSome then files else files.insert hash data)

/-- What `PartStore::write_bytes` returns. -/
def writeResult (env : Env) (data : Bytes) : PartWriteResult := ⟨env.blake3 data, env.md5 data, data.length⟩

def exec (env : Env) : (op : Op) → World → op.Res × World
  | .metaOp op, w =>
    let r := op.exec (env.now w.clock) (env.now (w.clock + 1)) w.db
    (r.1, { w with db := r.2, clock := w.clock + 2 })
  | .writeBytes data, w =>
    let r := writePart env w.files data
    (r.1, { w with files := r.2 })
  | .readPart hash, w => (w.files.get hash, w)
  | .deletePart hash, w => ((), { w with files := w.files.erase hash })
  | .nowUtc, w => (env.now w.clock, { w with clock := w.clock + 1 })
  | .newUuid, w => (env.uuid w.uuids, { w with uuids := w.uuids + 1 })

theorem writePart_get (env : Env) (files : Table Hash Bytes) (data : Bytes) (h : Hash) :
    (writePart env files data).2.get h =
      if h = env.blake3 data ∧ files.get h = none then some data else files.get h := by
  unfold writePart
  simp only
  by_cases hh : h = env.blake3 data
  · subst hh
    cases hf : files.get (env.blake3 data) with
    | none => simp
    | some d => simp [hf]
  · split
    · simp [hh]
    · rw [Table.get_insert_ne _ _ hh]
      simp [hh]

/-- The transaction changed a row and succeeded. -/
def Op.storesRow : (op : Op) → op.Res → Bool
  | .metaOp (.putManifest _), .ok _ => true
  | .metaOp (.deleteManifest _), .ok _ => true
  | .metaOp (.appendPart ..), .ok _ => true
  | .metaOp (.completeMultipartUpload ..), .ok _ => true
  | .metaOp (.updateManifestState ..), .ok _ => true
  | .metaOp (.updateManifestTags ..), .ok _ => true
  | .metaOp (.updateManifestLock ..), .ok _ => true
  | _, _ => false

def Op.deletedPart : Op → Option Hash
  | .deletePart hash => some hash
  | _ => none

theorem Op.eq_of_deletedPart {op : Op} {hash : Hash} (h : op.deletedPart = some hash) : op = .deletePart hash := by
  cases op <;> cases h
  rfl

def Op.createdBucket : Op → Option (Str × BucketConfig)
  | .metaOp (.createBucket name cfg) => some (name, cfg)
  | _ => none

theorem Op.eq_of_createdBucket {op : Op} {name : Str} {cfg : BucketConfig} (h : op.createdBucket = some (name, cfg)) :
    op = .metaOp (.createBucket name cfg) := by
  cases op with
  | metaOp op =>
    cases op <;> cases h
    rfl
  | _ => cases h

theorem storesRow_of_keepsRows {op : MetaOp} (h : op.keepsRows = true) (r : op.Res) : (Op.metaOp op).storesRow r = false := by
  cases op <;> first | rfl | cases h

theorem exec_metaOp_keepsRows {env : Env} {op : MetaOp} (h : op.keepsRows = true) (w : World) :
    (exec env (.metaOp op) w).2.db.objects = w.db.objects ∧ (exec env (.metaOp op) w).2.db.buckets = w.db.buckets :=
  exec_keepsRows h (env.now w.clock) (env.now (w.clock + 1)) w.db

end S3lite
