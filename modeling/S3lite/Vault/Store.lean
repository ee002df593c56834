/-
  S3lite.Vault.Store — what the server is for: a store of versioned objects.

  A `Vault` is what the clients know of it: which buckets there are and how they version, for
  each key its versions with their bytes, newest first, and for each upload in progress its
  parts. There are no manifests, hashes, files, counts or times in it.
  - `Becomes`: what a request that succeeds makes of the vault.
  - `Replies`: what the vault says of the answer.
  - `Serves`: both, where a request that fails leaves the vault as it is.
  - `Runs`: requests one after the other.
-/
import S3lite.Base.History
import S3lite.Base.Pieces
import S3lite.Ranges.Get

namespace S3lite

structure Vault where
  /-- The buckets there are. -/
  versioning : Str → Option VersioningState
  history : Str → Str → History Str Bytes
  /-- The parts of an upload in progress, by number. -/
  uploads : Str → Str → Str → Option (Nat → Option Bytes)

namespace Vault

def empty : Vault := ⟨fun _ => none, fun _ _ => [], fun _ _ _ => none⟩

def configure (s : Vault) (bucket : Str) (v : Option VersioningState) : Vault :=
  { s with versioning := Function.update s.versioning bucket v }

def write (s : Vault) (bucket key : Str) (v : Version Str Bytes) : Vault :=
  { s with history := fun b k => if b = bucket ∧ k = key then (s.history b k).record v else s.history b k }

def setUpload (s : Vault) (bucket key id : Str) (u : Option (Nat → Option Bytes)) : Vault :=
  { s with uploads := fun b k i => if b = bucket ∧ k = key ∧ i = id then u else s.uploads b k i }

/-- Whatever has the id goes: a version, or an upload in progress. -/
def remove (s : Vault) (bucket key id : Str) : Vault :=
  { s.setUpload bucket key id none with
    history := fun b k => if b = bucket ∧ k = key then (s.history b k).forget id else s.history b k }

/-- The bytes of a version: by id, or of the newest. -/
def content (s : Vault) (bucket key : Str) (versionId : Option Str) : Option Bytes :=
  ((s.history bucket key).look versionId).bind (·.content)

/-- Nothing has the id. -/
def Fresh (s : Vault) (bucket key id : Str) : Prop :=
  (∀ v ∈ s.history bucket key, v.id ≠ id) ∧ s.uploads bucket key id = none

/-- The id of a new version: fresh where versioning is enabled, "null" elsewhere. -/
def Names (s : Vault) (bucket key id : Str) : Prop :=
  match s.versioning bucket with
  | none => False
  | some .enabled => s.Fresh bucket key id
  | some .off | some .suspended => id = nullVersionId

/-- There are no versions and no uploads in the bucket. -/
def Vacant (s : Vault) (bucket : Str) : Prop := ∀ key, s.history bucket key = [] ∧ ∀ id, s.uploads bucket key id = none

/-- The request lists parts of the upload, each with the ETag of its bytes. -/
def Lists (env : Env) (u : Nat → Option Bytes) (request : List (Nat × Str)) (pieces : List Bytes) : Prop :=
  List.Forall₂ (fun req c => u req.1 = some c ∧ trim req.2 = etagOfMd5 (env.md5 c)) request pieces

/-- The upload can be completed: the request lists some of its parts by ascending number. -/
def Completes (env : Env) (s : Vault) (bucket key id : Str) (body : Bytes) (pieces : List Bytes) : Prop :=
  ∃ u request, s.uploads bucket key id = some u ∧ env.xmlCompleteMultipartUpload body = .ok request ∧ request ≠ [] ∧
    partsSorted 0 request = true ∧ Lists env u request pieces

/-- The parts of an upload, each once, by ascending number. -/
structure ListsParts (env : Env) (u : Nat → Option Bytes) (parts : List ListPartsPart) : Prop where
  ascending : parts.Pairwise fun p q => p.partNumber < q.partNumber
  each : ∀ p ∈ parts, ∃ c, u p.partNumber = some c ∧ p.etag = etagOfMd5 (env.md5 c) ∧ p.size = c.length
  all : ∀ n c, u n = some c → ∃ p ∈ parts, p.partNumber = n

/-! ## Requests -/

/-- What a request that is answered with `resp` makes of the vault. -/
def Becomes (env : Env) (s : Vault) (resp : Response) (s' : Vault) : Request → Prop
  | .createBucket bucket headers => s' = s.configure bucket (some (newBucketConfig env headers 0).versioning)
  | .deleteBucket bucket => s' = s.configure bucket none
  | .putBucketVersioning bucket body => ∃ status v, env.xmlVersioning body = .ok status ∧ versioningStateOf bucket status = .ok v ∧
      s' = s.configure bucket (some v)
  | .putObject bucket key _ body => ∃ id, s.Names bucket key id ∧ s' = s.write bucket key ⟨id, some body⟩
  | .copyObject bucket key source _ => ∃ id c, s.Names bucket key id ∧
      s.content source.bucket source.key source.versionId = some c ∧ s' = s.write bucket key ⟨id, some c⟩
  | .deleteObject bucket key (some id) => s' = s.remove bucket key id
  | .deleteObject bucket key none =>
      if s.versioning bucket = some .off then s' = s.remove bucket key nullVersionId
      else ∃ id, s.Names bucket key id ∧ s' = s.write bucket key ⟨id, none⟩
  | .createMultipartUpload bucket key _ => ∃ id, resp.body = .xml (.initiateMultipartUpload bucket key id) ∧ s.Fresh bucket key id ∧
      s' = s.setUpload bucket key id (some fun _ => none)
  | .uploadPart bucket key id n _ body => ∃ u, s.uploads bucket key id = some u ∧
      s' = s.setUpload bucket key id (some (Function.update u n (some body)))
  | .uploadPartCopy bucket key id n source headers => ∃ u c range, s.uploads bucket key id = some u ∧
      s.content source.bucket source.key source.versionId = some c ∧
        copySourceRange bucket key headers c.length = .ok range ∧
          s' = s.setUpload bucket key id (some (Function.update u n (some (cut range.1 (range.2 + 1) c))))
  | .completeMultipartUpload bucket key id body => ∃ pieces, s.Completes env bucket key id body pieces ∧
      s' = (s.write bucket key ⟨nullVersionId, some pieces.flatten⟩).setUpload bucket key id none
  | .abortMultipartUpload bucket key id => s' = s.setUpload bucket key id none
  | _ => s' = s

def Succeeds (answer : Except Failure Response) : Prop := ∃ resp, answer = .ok resp

/-- The answer fails with one of the codes. -/
def Fails (codes : List S3ErrorCode) (answer : Except Failure Response) : Prop :=
  ∃ e, answer = .error (.error e) ∧ e.code ∈ codes

/-- The answer is the bytes, or the range of them that the header names, or why it names none. -/
def Sends (headers : HeaderMap) (c : Bytes) (answer : Except Failure Response) : Prop :=
  match parseRangeHeader headers c.length with
  | .ok none => ∃ resp, answer = .ok resp ∧ SendsWhole c resp
  | .ok (some (first, last)) => ∃ resp, answer = .ok resp ∧ SendsRange c first last resp
  | .error e => answer = .error (.error e)

/-- What the vault answers. A GET without conditions sends the version's bytes, or the range of
    them; an upload's parts are listed by their numbers; and the requests whose success is the
    vault's matter alone succeed exactly when it is granted. -/
def Replies (env : Env) (s : Vault) (answer : Except Failure Response) : Request → Prop
  | .createBucket bucket _ => Succeeds answer ↔ s.versioning bucket = none
  | .deleteBucket bucket => Succeeds answer ↔ s.versioning bucket ≠ none ∧ s.Vacant bucket
  | .createMultipartUpload bucket _ _ => Succeeds answer ↔ s.versioning bucket ≠ none
  | .completeMultipartUpload bucket key id body => Succeeds answer ↔ ∃ pieces, s.Completes env bucket key id body pieces
  | .abortMultipartUpload bucket key id => Succeeds answer ↔ s.uploads bucket key id ≠ none
  | .getObject bucket key versionId headers => NoConditions headers →
      match (s.history bucket key).look versionId with
      | some ⟨_, some c⟩ => Sends headers c answer
      | some ⟨_, none⟩ => Fails [if versionId = none then .noSuchKey else .invalidRequest] answer
      | none => Fails [.noSuchBucket, .noSuchKey] answer
  | .listParts bucket key id =>
      match s.uploads bucket key id with
      | none => Fails [.noSuchUpload] answer
      | some u => ∃ resp parts, answer = .ok resp ∧ resp.body = .xml (.listParts bucket key id 1000 false parts) ∧
          ListsParts env u parts
  | _ => True

/-- A request and its answer take the vault from `s` to `s'`. -/
structure Serves (env : Env) (s : Vault) (r : Request) (answer : Except Failure Response) (s' : Vault) : Prop where
  replies : s.Replies env answer r
  done : ∀ resp, answer = .ok resp → s.Becomes env resp s' r
  refused : ∀ e, answer = .error e → s' = s

/-- Requests and their answers, one after the other. -/
inductive Runs (env : Env) : Vault → List (Request × Except Failure Response) → Vault → Prop
  | nil (s : Vault) : Runs env s [] s
  | cons {s s1 s' : Vault} {r : Request} {answer : Except Failure Response} {rest : List (Request × Except Failure Response)} :
      s.Serves env r answer s1 → Runs env s1 rest s' → Runs env s ((r, answer) :: rest) s'

end Vault

end S3lite
