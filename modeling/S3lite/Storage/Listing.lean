/-
  S3lite.Storage.Listing — one page of a listing (`handle_list_objects` and
  `handle_list_object_versions` of src/storage/db/actor.rs, the cursors of
  src/storage/db/mod.rs).

  A page is cut from a scan of the bucket's rows that starts at the cursor and stops at
  the first committed row whose key lacks the prefix. Strings are UTF-8 bytes, so
  `starts_with`, `find` and slicing are those of bytes.
-/
import S3lite.Storage.MetaStore

namespace S3lite

/-- Where to resume a scan. -/
inductive ListCursor where
  /-- Keys strictly greater than this one. -/
  | afterKey (key : Str)
  /-- Past every key starting with this prefix. -/
  | afterPrefix (pre : Str)
  deriving DecidableEq

structure ListObjectsRequest where
  bucket : Str
  pre : Str
  delimiter : Option Str
  cursor : Option ListCursor
  limit : Nat
  deriving DecidableEq

inductive ListItem where
  | object (m : Manifest)
  | commonPrefix (pre : Str)

structure ListObjectsPage where
  items : List ListItem
  truncated : Bool
  nextCursor : Option ListCursor

structure ListObjectVersionEntry where
  manifest : Manifest
  isLatest : Bool

structure ListObjectVersionsPage where
  entries : List ListObjectVersionEntry
  truncated : Bool
  nextCursor : Option ListCursor

/-! ## Scan positions -/

def initialScanStart (bucket pre : Str) : Bytes := bucket ++ 0 :: pre

def afterKey (bucket key : Str) : Bytes := bucket ++ 0 :: (key ++ [1])

/-- The loop of `after_prefix`, from the last byte: the last byte below 0xff goes up by
    one and what follows it is cut. -/
def bumpLast : Bytes → Option Bytes
  | [] => none
  | c :: cs =>
    match bumpLast cs with
    | some cs => some (c :: cs)
    | none => if c < 0xff then some [c + 1] else none

def afterPrefix (bucket pre : Str) : Bytes := bucket ++ 0 :: (bumpLast pre).getD (pre ++ [1])

def ListObjectsRequest.scanStart (req : ListObjectsRequest) : Bytes :=
  match req.cursor with
  | none => initialScanStart req.bucket req.pre
  | some (.afterKey k) => afterKey req.bucket k
  | some (.afterPrefix p) => afterPrefix req.bucket p

/-- The scan both listings make: the committed manifests from the cursor on, up to the
    first one whose key lacks the prefix. -/
def scanCommitted (pre : Str) : List (Bytes × Manifest) → List Manifest
  | [] => []
  | (_, m) :: rows =>
    if m.state ≠ .committed then scanCommitted pre rows
    else if ¬ pre <+: m.key.key then []
    else m :: scanCommitted pre rows

def ListObjectsRequest.scan (req : ListObjectsRequest) (db : Db) : List Manifest :=
  scanCommitted req.pre (db.objects.range req.scanStart (req.bucket ++ [1]))

/-! ## Objects -/

/-- `latest_by_key` with one more manifest: it replaces one that is strictly older. -/
def noteLatest (latestByKey : Table Str Manifest) (m : Manifest) : Table Str Manifest :=
  match latestByKey.get m.key.key with
  | none => latestByKey.insert m.key.key m
  | some existing =>
    if existing.lastModified < m.lastModified then latestByKey.insert m.key.key m else latestByKey

/-- `str::find`: where the pattern first occurs. -/
def findStr (pat : Str) : Str → Option Nat
  | [] => if pat = [] then some 0 else none
  | c :: cs => if pat <+: c :: cs then some 0 else (findStr pat cs).map (· + 1)

/-- The common prefix a key is rolled up to: up to and including the first delimiter
    after the prefix. -/
def commonPrefixOf (pre : Str) (delimiter : Option Str) (key : Str) : Option Str :=
  delimiter.bind fun delim =>
    (findStr delim (key.drop pre.length)).map fun pos => key.take (pre.length + pos + delim.length)

def ListItem.cursor : ListItem → ListCursor
  | .object m => .afterKey m.key.key
  | .commonPrefix p => .afterPrefix p

/-- The loop over `latest_by_key`. -/
def pageLoop (req : ListObjectsRequest) (items : List ListItem) (skipPrefix : Option Str) :
    List (Str × Manifest) → ListObjectsPage
  | [] => ⟨items, false, none⟩
  | (key, m) :: rest =>
    -- tombstones hide the key
    if m.kind ≠ .object then pageLoop req items skipPrefix rest
    else if skipPrefix.any fun skip => decide (skip <+: key) then pageLoop req items skipPrefix rest
    else if req.limit ≤ items.length then ⟨items, true, items.getLast?.map ListItem.cursor⟩
    else match commonPrefixOf req.pre req.delimiter key with
      | some p => pageLoop req (items ++ [.commonPrefix p]) (some p) rest
      | none => pageLoop req (items ++ [.object m]) none rest

def handleListObjects (db : Db) (req : ListObjectsRequest) : ListObjectsPage :=
  pageLoop req [] none ((req.scan db).foldl noteLatest .empty).rows

/-! ## Versions -/

/-- `by_key.entry(key).or_default().push(m)`. -/
def pushVersion (byKey : Table Str (List Manifest)) (m : Manifest) : Table Str (List Manifest) :=
  byKey.insert m.key.key ((byKey.get m.key.key).getD [] ++ [m])

/-- `versions.sort_by(|a, b| b.last_modified.cmp(&a.last_modified))`, a stable sort:
    newest first. -/
def sortVersions (versions : List Manifest) : List Manifest :=
  versions.insertionSort fun a b => b.lastModified ≤ a.lastModified

def ListObjectVersionsPage.cut (entries : List ListObjectVersionEntry) : ListObjectVersionsPage :=
  ⟨entries, true, entries.getLast?.map fun e => .afterKey e.manifest.key.key⟩

/-- The inner loop, over one key's versions: `error` is the cut. -/
def versionLoop (limit : Nat) (entries : List ListObjectVersionEntry) (isLatest : Bool) :
    List Manifest → Except ListObjectVersionsPage (List ListObjectVersionEntry)
  | [] => .ok entries
  | m :: ms =>
    if limit ≤ entries.length then .error (.cut entries)
    else versionLoop limit (entries ++ [⟨m, isLatest⟩]) false ms

/-- The outer loop, over the keys. -/
def keyLoop (limit : Nat) (entries : List ListObjectVersionEntry) : List (Str × List Manifest) → ListObjectVersionsPage
  | [] => ⟨entries, false, none⟩
  | (_, versions) :: rest =>
    match versionLoop limit entries true (sortVersions versions) with
    | .ok entries => keyLoop limit entries rest
    | .error page => page

def handleListObjectVersions (db : Db) (req : ListObjectsRequest) : ListObjectVersionsPage :=
  keyLoop req.limit [] ((req.scan db).foldl pushVersion .empty).rows

end S3lite
