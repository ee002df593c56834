/-
  S3lite.Storage.MetaStore — the metadata store's transactions (src/storage/db/actor.rs).

  One thread owns the redb database and runs one operation at a time, each in one
  transaction, so every `handle…` is one step from database to database. A handler that
  fails returns no database: redb drops an uncommitted transaction. Rows are stored
  bincode-encoded and decoded as they were; the model holds them decoded.
-/
import S3lite.Storage.Manifest

namespace S3lite

inductive MetaError where
  | bucketExists (name : Str)
  | bucketNotFound (name : Str)
  | bucketNotEmpty (name : Str)
  | manifestNotFound (key : ManifestKey)
  | partGcPending (hex : Str)
  | partNotFound (hex : Str)
  | uploadNotInProgress (key : ManifestKey)
  deriving DecidableEq

abbrev Buckets := Table Str BucketConfig
abbrev Objects := Table Bytes Manifest
abbrev Parts := Table Hash PartEntry

/-- The tables `BUCKETS`, `OBJECTS`, `PARTS` and `EVENTS_DLQ`. -/
structure Db where
  buckets : Buckets
  objects : Objects
  parts : Parts
  eventsDlq : Table Nat Bytes

def Db.empty : Db := ⟨.empty, .empty, .empty, .empty⟩

/-! ## Part reference counts -/

def incPartRefcount (parts : Parts) (hash : Hash) (size : Nat) (now : Time) : Except MetaError Parts :=
  match parts.get hash with
  | some e =>
    if e.state = .gcPending then .error (.partGcPending (hexEncode hash.toList))
    else .ok (parts.insert hash { e with refcount := min (e.refcount + 1) u32Max })
  | none => .ok (parts.insert hash { refcount := 1, size := size, state := .live, createdAt := now })

/-- Also the hash, when its count dropped to 0 (the caller should mark and collect it). -/
def decPartRefcount (parts : Parts) (hash : Hash) : Parts × Option Hash :=
  match parts.get hash with
  | none => (parts, none)
  | some e =>
    let refcount := if 0 < e.refcount then e.refcount - 1 else e.refcount
    (parts.insert hash { e with refcount := refcount }, if refcount = 0 then some hash else none)

/-- The loop over a new manifest's parts. -/
def incAll (now : Time) : Parts → List PartRef → Except MetaError Parts
  | parts, [] => .ok parts
  | parts, p :: ps => (incPartRefcount parts p.hash p.size now).bind fun parts => incAll now parts ps

/-- The loop over an old manifest's parts, with the hashes it freed. -/
def decAll : Parts → List PartRef → Parts × List Hash
  | parts, [] => (parts, [])
  | parts, p :: ps =>
    let d := decPartRefcount parts p.hash
    let r := decAll d.1 ps
    (r.1, d.2.toList ++ r.2)

/-- The parts a replaced row's manifest gives up. -/
def oldParts : Option Manifest → List PartRef
  | some old => old.parts
  | none => []

/-! ## Buckets -/

/-- The rows of one bucket: keys from `name\0` to before `name\1`. -/
def bucketRange (db : Db) (name : Str) : List (Bytes × Manifest) := db.objects.range (name ++ [0]) (name ++ [1])

def handleCreateBucket (db : Db) (name : Str) (config : BucketConfig) : Except MetaError Db :=
  if (db.buckets.get name).isSome then .error (.bucketExists name)
  else .ok { db with buckets := db.buckets.insert name config }

def handleGetBucket (db : Db) (name : Str) : Option BucketConfig := db.buckets.get name

def handleDeleteBucket (db : Db) (name : Str) : Except MetaError Db :=
  if (db.buckets.get name).isNone then .error (.bucketNotFound name)
  else if (bucketRange db name).isEmpty then .ok { db with buckets := db.buckets.erase name }
  else .error (.bucketNotEmpty name)

def handleListBuckets (db : Db) : List (Str × BucketConfig) := db.buckets.rows

/-- The five `handle_update_bucket_…` differ in the field they replace. -/
def updateBucket (db : Db) (name : Str) (f : BucketConfig → BucketConfig) : Except MetaError Db :=
  match db.buckets.get name with
  | none => .error (.bucketNotFound name)
  | some cfg => .ok { db with buckets := db.buckets.insert name (f cfg) }

def handleUpdateBucketVersioning (db : Db) (name : Str) (newState : VersioningState) : Except MetaError Db :=
  updateBucket db name fun cfg => { cfg with versioning := newState }

def handleUpdateBucketCors (db : Db) (name : Str) (rules : List CorsRule) : Except MetaError Db :=
  updateBucket db name fun cfg => { cfg with corsRules := rules }

def handleUpdateBucketObjectLock (db : Db) (name : Str) (lock : Option ObjectLockConfig) : Except MetaError Db :=
  updateBucket db name fun cfg => { cfg with objectLock := lock }

def handleUpdateBucketLifecycle (db : Db) (name : Str) (rules : List LifecycleRule) : Except MetaError Db :=
  updateBucket db name fun cfg => { cfg with lifecycleRules := rules }

/-! ## Manifests -/

def handlePutManifest (db : Db) (now : Time) (m : Manifest) : Except MetaError (DeletionEffect × Db) :=
  let keyBytes := m.key.encode
  let old := db.objects.get keyBytes
  (incAll now db.parts m.parts).bind fun parts =>
    let d := decAll parts (oldParts old)
    .ok (⟨d.2⟩, { db with objects := db.objects.insert keyBytes m, parts := d.1 })

def handleGetManifest (db : Db) (key : ManifestKey) : Option Manifest := db.objects.get key.encode

def handleDeleteManifest (db : Db) (key : ManifestKey) : Except MetaError (DeletionEffect × Db) :=
  match db.objects.get key.encode with
  | none => .error (.manifestNotFound key)
  | some m =>
    let d := decAll db.parts m.parts
    .ok (⟨d.2⟩, { db with objects := db.objects.erase key.encode, parts := d.1 })

/-- The handlers that rewrite fields of one manifest and leave its parts. -/
def updateManifest (db : Db) (key : ManifestKey) (f : Manifest → Manifest) : Except MetaError Db :=
  match db.objects.get key.encode with
  | none => .error (.manifestNotFound key)
  | some m => .ok { db with objects := db.objects.insert key.encode (f m) }

def handleUpdateState (db : Db) (now : Time) (key : ManifestKey) (newState : ManifestState) : Except MetaError Db :=
  updateManifest db key fun m => { m with state := newState, lastModified := now }

def handleUpdateManifestTags (db : Db) (key : ManifestKey) (tags : Table Str Str) : Except MetaError Db :=
  updateManifest db key fun m => { m with tags := tags }

def handleUpdateManifestLock (db : Db) (key : ManifestKey) (lock : Option ObjectLock) : Except MetaError Db :=
  updateManifest db key fun m => { m with objectLock := lock }

/-- A `u64` sum of part sizes, as a release build wraps it. A build with overflow checks panics where
    it does not fit: in the store, that ends its thread, and every operation after it fails. -/
def sizeSum (parts : List PartRef) : Nat := (parts.map (·.size)).sum % 2 ^ 64

/-- `parts.sort_by_key(|p| p.part_number)`, a stable sort. -/
def sortParts (parts : List PartRef) : List PartRef := parts.insertionSort fun a b => a.partNumber ≤ b.partNumber

/-- The part of the same number leaves the list and its count drops; it is freed only if
    the new part has another hash (the same hash is counted again right after). -/
def dropReplaced (parts : Parts) (have_ : List PartRef) (part : PartRef) : Parts × List Hash × List PartRef :=
  match have_.find? fun p => p.partNumber = part.partNumber with
  | some old =>
    let d := decPartRefcount parts old.hash
    (d.1, if old.hash ≠ part.hash then d.2.toList else [], have_.eraseP fun p => p.partNumber = part.partNumber)
  | none => (parts, [], have_)

/-- `now` stamps a new part entry, `now'` the manifest. -/
def handleAppendPart (db : Db) (now now' : Time) (key : ManifestKey) (part : PartRef) :
    Except MetaError (DeletionEffect × Db) :=
  match db.objects.get key.encode with
  | none => .error (.manifestNotFound key)
  | some m =>
    let d := dropReplaced db.parts m.parts part
    (incPartRefcount d.1 part.hash part.size now).bind fun parts =>
      -- the sum wraps: the end of the thread in a build with overflow checks is not modelled
      let ps := sortParts (d.2.2 ++ [part])
      let m' := { m with parts := ps, size := sizeSum ps, lastModified := now' }
      .ok (⟨d.2.1⟩, { db with objects := db.objects.insert key.encode m', parts := parts })

/-- The `collect` loop: each candidate once, those the new manifest does not reference
    and whose count is 0. -/
def collectFreed (newHashes : List Hash) (parts : Parts) : List Hash → List PartRef → List Hash
  | _, [] => []
  | considered, p :: ps =>
    if p.hash ∈ considered ∨ p.hash ∈ newHashes then collectFreed newHashes parts considered ps
    else
      let rest := collectFreed newHashes parts (p.hash :: considered) ps
      match parts.get p.hash with
      | some e => if e.refcount = 0 then p.hash :: rest else rest
      | none => rest

def handleCompleteMultipart (db : Db) (now : Time) (inProgressKey : ManifestKey) (newCommitted : Manifest) :
    Except MetaError (DeletionEffect × Db) :=
  match db.objects.get inProgressKey.encode with
  | none => .error (.manifestNotFound inProgressKey)
  | some inProgress =>
    if inProgress.state ≠ .inProgress then .error (.uploadNotInProgress inProgressKey)
    else
      let committedKeyBytes := newCommitted.key.encode
      let oldCommitted := db.objects.get committedKeyBytes
      let parts := (decAll (decAll db.parts inProgress.parts).1 (oldParts oldCommitted)).1
      (incAll now parts newCommitted.parts).bind fun parts =>
        let newHashes := newCommitted.parts.map (·.hash)
        let freed := collectFreed newHashes parts [] (inProgress.parts ++ oldParts oldCommitted)
        let objects := (db.objects.insert committedKeyBytes newCommitted).erase inProgressKey.encode
        .ok (⟨freed⟩, { db with objects := objects, parts := parts })

/-- Keep the first manifest of the greatest `last_modified`. -/
def takeLatest (latest : Option Manifest) (m : Manifest) : Option Manifest :=
  match latest with
  | none => some m
  | some l => if l.lastModified < m.lastModified then some m else some l

def handleGetLatestVersion (db : Db) (bucket key : Str) : Option Manifest :=
  let scanStart := bucket ++ 0 :: (key ++ [0])
  let scanEnd := bucket ++ 0 :: (key ++ [1])
  let hits := ((db.objects.range scanStart scanEnd).map (·.2)).filter fun m =>
    m.state = .committed ∧ m.key.bucket = bucket ∧ m.key.key = key
  hits.foldl takeLatest none

def handleListAllManifestsInBucket (db : Db) (bucket : Str) : List Manifest :=
  ((bucketRange db bucket).map (·.2)).filter fun m => m.key.bucket = bucket

/-! ## What a successful transaction did -/

section
variable {db db' : Db} {effect : DeletionEffect} {now now' : Time}

theorem put_ok {m : Manifest} (h : handlePutManifest db now m = .ok (effect, db')) :
    ∃ parts, incAll now db.parts m.parts = .ok parts ∧
      effect = ⟨(decAll parts (oldParts (db.objects.get m.key.encode))).2⟩ ∧
      db' = { db with
        objects := db.objects.insert m.key.encode m
        parts := (decAll parts (oldParts (db.objects.get m.key.encode))).1 } := by
  simp only [handlePutManifest] at h
  cases hi : incAll now db.parts m.parts with
  | error e => rw [hi] at h; cases h
  | ok parts => rw [hi] at h; cases h; exact ⟨parts, rfl, rfl, rfl⟩

theorem delete_ok {key : ManifestKey} (h : handleDeleteManifest db key = .ok (effect, db')) :
    ∃ m, db.objects.get key.encode = some m ∧ effect = ⟨(decAll db.parts m.parts).2⟩ ∧
      db' = { db with objects := db.objects.erase key.encode, parts := (decAll db.parts m.parts).1 } := by
  simp only [handleDeleteManifest] at h
  cases hk : db.objects.get key.encode with
  | none => rw [hk] at h; cases h
  | some m => rw [hk] at h; cases h; exact ⟨m, rfl, rfl, rfl⟩

theorem update_ok {key : ManifestKey} {f : Manifest → Manifest} (h : updateManifest db key f = .ok db') :
    ∃ m, db.objects.get key.encode = some m ∧ db' = { db with objects := db.objects.insert key.encode (f m) } := by
  simp only [updateManifest] at h
  cases hk : db.objects.get key.encode with
  | none => rw [hk] at h; cases h
  | some m => rw [hk] at h; cases h; exact ⟨m, rfl, rfl⟩

/-- The manifest of an upload with a part added. -/
def Manifest.withParts (m : Manifest) (ps : List PartRef) (now : Time) : Manifest :=
  { m with parts := ps, size := sizeSum ps, lastModified := now }

theorem append_ok {key : ManifestKey} {part : PartRef} (h : handleAppendPart db now now' key part = .ok (effect, db')) :
    ∃ m parts, db.objects.get key.encode = some m ∧
      incPartRefcount (dropReplaced db.parts m.parts part).1 part.hash part.size now = .ok parts ∧
      effect = ⟨(dropReplaced db.parts m.parts part).2.1⟩ ∧
      db' = { db with
        objects := db.objects.insert key.encode
          (m.withParts (sortParts ((dropReplaced db.parts m.parts part).2.2 ++ [part])) now')
        parts := parts } := by
  simp only [handleAppendPart] at h
  cases hk : db.objects.get key.encode with
  | none => rw [hk] at h; cases h
  | some m =>
    rw [hk] at h
    simp only at h
    cases hi : incPartRefcount (dropReplaced db.parts m.parts part).1 part.hash part.size now with
    | error e => rw [hi] at h; cases h
    | ok parts => rw [hi] at h; cases h; exact ⟨m, parts, rfl, hi, rfl, rfl⟩

theorem complete_ok {key : ManifestKey} {m : Manifest} (h : handleCompleteMultipart db now key m = .ok (effect, db')) :
    ∃ up parts, db.objects.get key.encode = some up ∧ up.state = .inProgress ∧
      incAll now (decAll (decAll db.parts up.parts).1 (oldParts (db.objects.get m.key.encode))).1 m.parts = .ok parts ∧
      effect = ⟨collectFreed (m.parts.map (·.hash)) parts [] (up.parts ++ oldParts (db.objects.get m.key.encode))⟩ ∧
      db' = { db with objects := (db.objects.insert m.key.encode m).erase key.encode, parts := parts } := by
  simp only [handleCompleteMultipart] at h
  cases hk : db.objects.get key.encode with
  | none => rw [hk] at h; cases h
  | some up =>
    rw [hk] at h
    simp only at h
    split at h
    · cases h
    · rename_i hs
      cases hi : incAll now (decAll (decAll db.parts up.parts).1 (oldParts (db.objects.get m.key.encode))).1 m.parts with
      | error e => rw [hi] at h; cases h
      | ok parts => rw [hi] at h; cases h; exact ⟨up, parts, rfl, not_not.mp hs, hi, rfl, rfl⟩

end

/-! ## Garbage collection -/

def handleGetPart (db : Db) (hash : Hash) : Option PartEntry := db.parts.get hash

def handleMarkGcPending (db : Db) (hash : Hash) : Except MetaError (Bool × Db) :=
  match db.parts.get hash with
  | none => .error (.partNotFound (hexEncode hash.toList))
  | some e =>
    if e.refcount ≠ 0 then .ok (false, db)
    else .ok (true, { db with parts := db.parts.insert hash { e with state := .gcPending } })

theorem mark_ok {db db' : Db} {hash : Hash} {granted : Bool} (h : handleMarkGcPending db hash = .ok (granted, db')) :
    ∃ e, db.parts.get hash = some e ∧ (granted = false ∧ e.refcount ≠ 0 ∧ db' = db ∨
      granted = true ∧ e.refcount = 0 ∧ db' = { db with parts := db.parts.insert hash { e with state := .gcPending } }) := by
  simp only [handleMarkGcPending] at h
  cases hk : db.parts.get hash with
  | none => rw [hk] at h; cases h
  | some e =>
    rw [hk] at h
    simp only at h
    split at h
    · rename_i hr
      cases h
      exact ⟨e, rfl, Or.inl ⟨rfl, hr, rfl⟩⟩
    · rename_i hr
      cases h
      exact ⟨e, rfl, Or.inr ⟨rfl, not_not.mp hr, rfl⟩⟩

def handleRemovePart (db : Db) (hash : Hash) : Db := { db with parts := db.parts.erase hash }

def handleListOrphanParts (db : Db) : List Hash :=
  (db.parts.rows.filter fun r => r.2.refcount = 0 ∧ r.2.state = .live).map (·.1)

def handleListGcPending (db : Db) : List Hash := (db.parts.rows.filter fun r => r.2.state = .gcPending).map (·.1)

/-! ## The dead-letter queue -/

def handleInsertDlq (db : Db) (entry : Bytes) : Nat × Db :=
  let next := match db.eventsDlq.rows.getLast? with
    | some (k, _) => k + 1
    | none => 1
  (next, { db with eventsDlq := db.eventsDlq.insert next entry })

def handleListDlq (db : Db) : List (Nat × Bytes) := db.eventsDlq.rows

end S3lite
