/-
  S3lite.Server.Requests — the client requests (src/s3/dispatch.rs) and the server as a pool
  of them with the sweeper.

  The bucket and the key of a request come from the URI, where no control character can
  stand; an upload id, a version id and a copy source are percent-decoded and arbitrary.
-/
import S3lite.S3.Multipart
import S3lite.S3.Bucket
import S3lite.S3.Maintenance
import S3lite.S3.Listing

namespace S3lite

open Handler

inductive Request where
  | listBuckets
  | createBucket (bucket : Str) (headers : HeaderMap)
  | deleteBucket (bucket : Str)
  | headBucket (bucket : Str)
  | getBucketLocation (bucket : Str)
  | putBucketVersioning (bucket : Str) (body : Bytes)
  | getBucketVersioning (bucket : Str)
  | putBucketLifecycle (bucket : Str) (body : Bytes)
  | getBucketLifecycle (bucket : Str)
  | deleteBucketLifecycle (bucket : Str)
  | putBucketCors (bucket : Str) (body : Bytes)
  | getBucketCors (bucket : Str)
  | deleteBucketCors (bucket : Str)
  | putBucketObjectLock (bucket : Str) (body : Bytes)
  | getBucketObjectLock (bucket : Str)
  | listObjects (bucket query : Str)
  | listObjectVersions (bucket query : Str)
  | createMultipartUpload (bucket key : Str) (headers : HeaderMap)
  | uploadPart (bucket key uploadId : Str) (partNumber : Nat) (headers : HeaderMap) (body : Bytes)
  | uploadPartCopy (bucket key uploadId : Str) (partNumber : Nat) (source : CopySource) (headers : HeaderMap)
  | completeMultipartUpload (bucket key uploadId : Str) (body : Bytes)
  | abortMultipartUpload (bucket key uploadId : Str)
  | listParts (bucket key uploadId : Str)
  | putObject (bucket key : Str) (headers : HeaderMap) (body : Bytes)
  | copyObject (bucket key : Str) (source : CopySource) (headers : HeaderMap)
  | getObject (bucket key : Str) (versionId : Option Str) (headers : HeaderMap)
  | headObject (bucket key : Str) (versionId : Option Str) (headers : HeaderMap)
  | deleteObject (bucket key : Str) (versionId : Option Str)
  | putObjectTagging (bucket key : Str) (versionId : Option Str) (body : Bytes)
  | getObjectTagging (bucket key : Str) (versionId : Option Str)
  | deleteObjectTagging (bucket key : Str) (versionId : Option Str)
  | putObjectRetention (bucket key : Str) (versionId : Option Str) (body : Bytes)
  | getObjectRetention (bucket key : Str) (versionId : Option Str)
  | putObjectLegalHold (bucket key : Str) (versionId : Option Str) (body : Bytes)
  | getObjectLegalHold (bucket key : Str) (versionId : Option Str)

namespace Request

/-- The handler `dispatch` runs. -/
def handler (env : Env) : Request → Handler Response
  | listBuckets => S3lite.listBuckets env
  | createBucket bucket headers => S3lite.createBucket env bucket headers
  | deleteBucket bucket => S3lite.deleteBucket bucket
  | headBucket bucket => S3lite.headBucket bucket
  | getBucketLocation bucket => S3lite.getBucketLocation bucket
  | putBucketVersioning bucket body => S3lite.putBucketVersioning env bucket body
  | getBucketVersioning bucket => S3lite.getBucketVersioning bucket
  | putBucketLifecycle bucket body => S3lite.putBucketLifecycle env bucket body
  | getBucketLifecycle bucket => S3lite.getBucketLifecycle bucket
  | deleteBucketLifecycle bucket => S3lite.deleteBucketLifecycle bucket
  | putBucketCors bucket body => S3lite.putBucketCors env bucket body
  | getBucketCors bucket => S3lite.getBucketCors bucket
  | deleteBucketCors bucket => S3lite.deleteBucketCors bucket
  | putBucketObjectLock bucket body => putBucketObjectLockConfig env bucket body
  | getBucketObjectLock bucket => getBucketObjectLockConfig bucket
  | listObjects bucket query => S3lite.listObjects env bucket query
  | listObjectVersions bucket query => S3lite.listObjectVersions env bucket query
  | createMultipartUpload bucket key headers => S3lite.createMultipartUpload bucket key headers
  | uploadPart bucket key uploadId partNumber headers body =>
    S3lite.uploadPart env bucket key uploadId partNumber headers body
  | uploadPartCopy bucket key uploadId partNumber source headers =>
    S3lite.uploadPartCopy env bucket key uploadId partNumber source headers
  | completeMultipartUpload bucket key uploadId body => S3lite.completeMultipartUpload env bucket key uploadId body
  | abortMultipartUpload bucket key uploadId => S3lite.abortMultipartUpload bucket key uploadId
  | listParts bucket key uploadId => S3lite.listParts env bucket key uploadId
  | putObject bucket key headers body => S3lite.putObject env bucket key headers body
  | copyObject bucket key source headers => S3lite.copyObject env bucket key source headers
  | getObject bucket key versionId headers => getOrHeadObject env bucket key versionId headers false
  | headObject bucket key versionId headers => getOrHeadObject env bucket key versionId headers true
  | deleteObject bucket key versionId => S3lite.deleteObject bucket key versionId
  | putObjectTagging bucket key versionId body => S3lite.putObjectTagging env bucket key versionId body
  | getObjectTagging bucket key versionId => S3lite.getObjectTagging bucket key versionId
  | deleteObjectTagging bucket key versionId => S3lite.deleteObjectTagging bucket key versionId
  | putObjectRetention bucket key versionId body => S3lite.putObjectRetention env bucket key versionId body
  | getObjectRetention bucket key versionId => S3lite.getObjectRetention env bucket key versionId
  | putObjectLegalHold bucket key versionId body => S3lite.putObjectLegalHold env bucket key versionId body
  | getObjectLegalHold bucket key versionId => S3lite.getObjectLegalHold bucket key versionId

/-- The names a request takes from its URI. -/
def names : Request → List Str
  | listBuckets => []
  | createBucket bucket _ | deleteBucket bucket | headBucket bucket | getBucketLocation bucket
  | putBucketVersioning bucket _ | getBucketVersioning bucket | putBucketLifecycle bucket _
  | getBucketLifecycle bucket | deleteBucketLifecycle bucket | putBucketCors bucket _ | getBucketCors bucket
  | deleteBucketCors bucket | putBucketObjectLock bucket _ | getBucketObjectLock bucket | listObjects bucket _
  | listObjectVersions bucket _ => [bucket]
  | createMultipartUpload bucket key _ | uploadPart bucket key .. | uploadPartCopy bucket key ..
  | completeMultipartUpload bucket key .. | abortMultipartUpload bucket key _ | listParts bucket key _
  | putObject bucket key .. | copyObject bucket key .. | getObject bucket key .. | headObject bucket key ..
  | deleteObject bucket key _ | putObjectTagging bucket key .. | getObjectTagging bucket key _
  | deleteObjectTagging bucket key _ | putObjectRetention bucket key .. | getObjectRetention bucket key _
  | putObjectLegalHold bucket key .. | getObjectLegalHold bucket key _ => [bucket, key]

def WellFormed (r : Request) : Prop := ∀ s ∈ r.names, NulFree s

instance instDecidableWellFormed (r : Request) : Decidable r.WellFormed :=
  inferInstanceAs (Decidable (∀ s ∈ r.names, NulFree s))

end Request

/-- The requests, one after the other. -/
def served (env : Env) (w : World) (requests : List Request) : World :=
  requests.foldl (fun w r => (run env (r.handler env) w).2) w

theorem served_append (env : Env) (w : World) (before after : List Request) :
    served env w (before ++ after) = served env (served env w before) after := List.foldl_append

end S3lite
