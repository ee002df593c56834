/-
  S3lite.Storage.Ops — the operations of the metadata store as one type (`actor::Op`): what
  each replies and what it does to the database, in one step.

  The operations that only read reply with a plain value: their error is the database's
  own, which the model has none of. `now` is the actor's clock in the transaction, and
  `now'` its second reading in `append_part`.
-/
import S3lite.Storage.Listing

namespace S3lite

inductive MetaOp where
  | createBucket (name : Str) (config : BucketConfig)
  | getBucket (name : Str)
  | deleteBucket (name : Str)
  | listBuckets
  | putManifest (manifest : Manifest)
  | getManifest (key : ManifestKey)
  | deleteManifest (key : ManifestKey)
  | updateManifestState (key : ManifestKey) (newState : ManifestState)
  | appendPart (key : ManifestKey) (part : PartRef)
  | getPart (hash : Hash)
  | markPartGcPending (hash : Hash)
  | removePart (hash : Hash)
  | listGcPendingParts
  | listObjects (request : ListObjectsRequest)
  | completeMultipartUpload (inProgressKey : ManifestKey) (newCommitted : Manifest)
  | getLatestVersion (bucket key : Str)
  | updateBucketVersioning (name : Str) (newState : VersioningState)
  | listObjectVersions (request : ListObjectsRequest)
  | updateBucketCors (name : Str) (rules : List CorsRule)
  | updateManifestTags (key : ManifestKey) (tags : Table Str Str)
  | updateBucketObjectLock (name : Str) (cfg : Option ObjectLockConfig)
  | updateManifestLock (key : ManifestKey) (lock : Option ObjectLock)
  | updateBucketLifecycle (name : Str) (rules : List LifecycleRule)
  | listAllManifestsInBucket (bucket : Str)
  | listOrphanParts
  | insertDlqEntry (entry : Bytes)
  | listDlq

/-- The reply to an operation. -/
@[reducible] def MetaOp.Res : MetaOp → Type
  | createBucket .. | deleteBucket _ | updateManifestState .. | updateBucketVersioning .. | updateBucketCors ..
  | updateManifestTags .. | updateBucketObjectLock .. | updateManifestLock .. | updateBucketLifecycle .. =>
    Except MetaError Unit
  | putManifest _ | deleteManifest _ | appendPart .. | completeMultipartUpload .. => Except MetaError DeletionEffect
  | markPartGcPending _ => Except MetaError Bool
  | removePart _ => Unit
  | getBucket _ => Option BucketConfig
  | listBuckets => List (Str × BucketConfig)
  | getManifest _ | getLatestVersion .. => Option Manifest
  | getPart _ => Option PartEntry
  | listGcPendingParts | listOrphanParts => List Hash
  | listObjects _ => ListObjectsPage
  | listObjectVersions _ => ListObjectVersionsPage
  | listAllManifestsInBucket _ => List Manifest
  | insertDlqEntry _ => Nat
  | listDlq => List (Nat × Bytes)

/-- The end of a write transaction: the new database with the reply, or the error with the
    database as it was. -/
def commit {α : Type} (db : Db) : Except MetaError (α × Db) → Except MetaError α × Db
  | .ok (a, db') => (.ok a, db')
  | .error e => (.error e, db)

def commit_ (db : Db) (r : Except MetaError Db) : Except MetaError Unit × Db := commit db (r.map fun db' => ((), db'))

@[simp] theorem commit_ok {α : Type} (db db' : Db) (a : α) : commit db (.ok (a, db')) = (.ok a, db') := rfl

@[simp] theorem commit_error {α : Type} (db : Db) (e : MetaError) :
    commit (α := α) db (.error e) = (.error e, db) := rfl

/-- What an operation does to the database. -/
def MetaOp.exec (now now' : Time) : (op : MetaOp) → Db → op.Res × Db
  | createBucket name config, db => commit_ db (handleCreateBucket db name config)
  | getBucket name, db => (handleGetBucket db name, db)
  | deleteBucket name, db => commit_ db (handleDeleteBucket db name)
  | listBuckets, db => (handleListBuckets db, db)
  | putManifest m, db => commit db (handlePutManifest db now m)
  | getManifest key, db => (handleGetManifest db key, db)
  | deleteManifest key, db => commit db (handleDeleteManifest db key)
  | updateManifestState key newState, db => commit_ db (handleUpdateState db now key newState)
  | appendPart key part, db => commit db (handleAppendPart db now now' key part)
  | getPart hash, db => (handleGetPart db hash, db)
  | markPartGcPending hash, db => commit db (handleMarkGcPending db hash)
  | removePart hash, db => ((), handleRemovePart db hash)
  | listGcPendingParts, db => (handleListGcPending db, db)
  | listObjects request, db => (handleListObjects db request, db)
  | completeMultipartUpload inProgressKey newCommitted, db =>
    commit db (handleCompleteMultipart db now inProgressKey newCommitted)
  | getLatestVersion bucket key, db => (handleGetLatestVersion db bucket key, db)
  | updateBucketVersioning name newState, db => commit_ db (handleUpdateBucketVersioning db name newState)
  | listObjectVersions request, db => (handleListObjectVersions db request, db)
  | updateBucketCors name rules, db => commit_ db (handleUpdateBucketCors db name rules)
  | updateManifestTags key tags, db => commit_ db (handleUpdateManifestTags db key tags)
  | updateBucketObjectLock name cfg, db => commit_ db (handleUpdateBucketObjectLock db name cfg)
  | updateManifestLock key lock, db => commit_ db (handleUpdateManifestLock db key lock)
  | updateBucketLifecycle name rules, db => commit_ db (handleUpdateBucketLifecycle db name rules)
  | listAllManifestsInBucket bucket, db => (handleListAllManifestsInBucket db bucket, db)
  | listOrphanParts, db => (handleListOrphanParts db, db)
  | insertDlqEntry entry, db => handleInsertDlq db entry
  | listDlq, db => (handleListDlq db, db)

end S3lite
