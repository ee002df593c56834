/-
  S3lite.Storage.Manifest — the rows of the metadata store (src/storage/manifest.rs).

  A Rust `String` is the bytes it holds (`Str`), a `u32`/`u64` a natural number with its
  wrap or saturation written where the code computes with it, an `OffsetDateTime` the
  nanoseconds since the Unix epoch (`Time`), a `BTreeMap` a `Table`.
-/
import S3lite.Base.Bytes
import S3lite.Base.Table

namespace S3lite

/-- A Rust `String`, as the bytes it holds. -/
abbrev Str := Bytes

/-- A string literal. -/
def str (s : String) : Str := s.toUTF8.data.toList

/-- What a Rust `String` can hold: the UTF-8 encoding of some characters. -/
def IsUtf8 (s : Str) : Prop := ∃ cs : List Char, s = cs.flatMap String.utf8EncodeChar

/-- No byte of a UTF-8 string is 0xff. -/
theorem IsUtf8.lt_ff {s : Str} (h : IsUtf8 s) {c : UInt8} (hc : c ∈ s) : c < 0xff := by
  obtain ⟨cs, rfl⟩ := h
  obtain ⟨ch, -, hc⟩ := List.mem_flatMap.mp hc
  rw [UInt8.lt_iff_toNat_lt]
  simp only [String.utf8EncodeChar] at hc
  split at hc
  · rw [List.mem_singleton.mp hc, UInt8.toNat_ofNat']
    show _ < 255
    omega
  · split at hc
    · simp only [List.mem_cons, List.not_mem_nil, or_false] at hc
      rcases hc with rfl | rfl <;> rw [UInt8.toNat_ofNat'] <;> show _ < 255 <;> omega
    · split at hc <;> simp only [List.mem_cons, List.not_mem_nil, or_false] at hc
      · rcases hc with rfl | rfl | rfl <;> rw [UInt8.toNat_ofNat'] <;> show _ < 255 <;> omega
      · rcases hc with rfl | rfl | rfl | rfl <;> rw [UInt8.toNat_ofNat'] <;> show _ < 255 <;> omega

/-- An `OffsetDateTime`: nanoseconds since the Unix epoch. -/
abbrev Time := Int

def u32Max : Nat := 2 ^ 32 - 1

/-- `[u8; 32]`, a BLAKE3 digest. -/
abbrev Hash := Vector UInt8 32

/-- `[u8; 16]`, an MD5 digest. -/
abbrev Md5 := Vector UInt8 16

/-- Digests are ordered by their bytes. -/
instance instLinearOrderVectorUInt8 (n : Nat) : LinearOrder (Vector UInt8 n) := LinearOrder.lift' Vector.toList fun _ _ => Vector.toList_inj.mp

def hexDigit (n : Nat) : UInt8 := if n < 10 then UInt8.ofNat (48 + n) else UInt8.ofNat (87 + n)

/-- `hex::encode`: two lower-case digits a byte. -/
def hexEncode (b : Bytes) : Str := b.flatMap fun c => [hexDigit (c.toNat / 16), hexDigit (c.toNat % 16)]

theorem hexDigit_injective : ∀ a < 16, ∀ b < 16, hexDigit a = hexDigit b → a = b := by decide

theorem hexEncode_injective {a b : Bytes} (h : hexEncode a = hexEncode b) : a = b := by
  induction a generalizing b with
  | nil =>
    cases b with
    | nil => rfl
    | cons y b => cases h
  | cons x a ih =>
    cases b with
    | nil => cases h
    | cons y b =>
      obtain ⟨hhi, h⟩ := List.cons.inj h
      obtain ⟨hlo, h⟩ := List.cons.inj h
      have hx := x.toNat_lt
      have hy := y.toNat_lt
      have hhi := hexDigit_injective _ (by omega) _ (by omega) hhi
      have hlo := hexDigit_injective _ (by omega) _ (by omega) hlo
      have hxy : x = y := UInt8.toNat_inj.mp (by omega)
      rw [hxy, ih h]

def quote (s : Str) : Str := str "\"" ++ s ++ str "\""

inductive ManifestState where
  | inProgress
  | committed
  | aborted
  deriving DecidableEq, Repr

inductive ManifestKind where
  | object
  | tombstone
  deriving DecidableEq, Repr

inductive UploadMode where
  | singlePut
  | multipart
  deriving DecidableEq, Repr

inductive ChecksumAlgorithm where
  | crc32
  | crc32c
  | sha1
  | sha256
  deriving DecidableEq, Repr

structure AdditionalChecksum where
  algorithm : ChecksumAlgorithm
  value : Bytes
  deriving DecidableEq

inductive LockMode where
  | compliance
  deriving DecidableEq, Repr

structure Retention where
  mode : LockMode
  retainUntil : Time
  deriving DecidableEq

structure ObjectLock where
  retention : Option Retention
  legalHold : Bool
  deriving DecidableEq

/-- The lock forbids deletion now: a legal hold, or a retention not yet expired. -/
def ObjectLock.forbidsDelete (l : ObjectLock) (now : Time) : Bool :=
  if l.legalHold then true
  else match l.retention with
    | some r => decide (now < r.retainUntil)
    | none => false

structure PartRef where
  partNumber : Nat
  hash : Hash
  md5 : Md5
  size : Nat
  deriving DecidableEq

structure ManifestKey where
  bucket : Str
  key : Str
  versionId : Str
  deriving DecidableEq

/-- The row key in `OBJECTS`: the components, NUL-separated. -/
def ManifestKey.encode (k : ManifestKey) : Bytes := k.bucket ++ 0 :: (k.key ++ 0 :: k.versionId)

structure Manifest where
  key : ManifestKey
  state : ManifestState
  kind : ManifestKind
  uploadMode : UploadMode
  parts : List PartRef
  size : Nat
  contentType : Option Str
  userMetadata : Table Str Str
  tags : Table Str Str
  additionalChecksum : Option AdditionalChecksum
  storageClass : Str
  objectLock : Option ObjectLock
  createdAt : Time
  lastModified : Time
  uploadId : Option Str

/-- `Manifest::etag`; `none` is a panic: `debug_assert_eq!` on a single PUT's part count in
    a debug build, the index `self.parts[0]` in any build. -/
def Manifest.etag (md5 : Bytes → Md5) (debug : Bool) (m : Manifest) : Option Str :=
  match m.uploadMode with
  | .singlePut =>
    if debug && m.parts.length != 1 then none
    else m.parts.head?.map fun part => quote (hexEncode part.md5.toList)
  | .multipart =>
    let digest := md5 (m.parts.flatMap fun part => part.md5.toList)
    some (quote (hexEncode digest.toList ++ str "-" ++ str (toString m.parts.length)))

inductive VersioningState where
  | off
  | enabled
  | suspended
  deriving DecidableEq, Repr

inductive LifecycleStatus where
  | disabled
  | enabled
  deriving DecidableEq, Repr

/-- A lifecycle rule: `expiration`, `noncurrentVersionExpiration` and
    `abortIncompleteMultipartUpload` are the days of the action, when it is present. -/
structure LifecycleRule where
  id : Option Str
  status : LifecycleStatus
  filterPrefix : Option Str
  expiration : Option Nat
  noncurrentVersionExpiration : Option Nat
  abortIncompleteMultipartUpload : Option Nat
  deriving DecidableEq

structure DefaultRetention where
  mode : LockMode
  days : Option Nat
  years : Option Nat
  deriving DecidableEq

structure ObjectLockConfig where
  enabled : Bool
  defaultRetention : Option DefaultRetention
  deriving DecidableEq

structure CorsRule where
  id : Option Str
  allowedOrigins : List Str
  allowedMethods : List Str
  allowedHeaders : List Str
  exposeHeaders : List Str
  maxAgeSeconds : Option Nat
  deriving DecidableEq

structure BucketConfig where
  createdAt : Time
  versioning : VersioningState
  region : Str
  corsRules : List CorsRule
  objectLock : Option ObjectLockConfig
  lifecycleRules : List LifecycleRule
  deriving DecidableEq

inductive PartState where
  | live
  | gcPending
  deriving DecidableEq, Repr

structure PartEntry where
  refcount : Nat
  size : Nat
  state : PartState
  createdAt : Time
  deriving DecidableEq

/-- What a manifest delete or replace freed: parts whose count dropped to 0. -/
structure DeletionEffect where
  freedParts : List Hash
  deriving DecidableEq

/-! ## Row keys -/

/-- No byte of the string is NUL. -/
def NulFree (s : Str) : Prop := Word.Clear 0 s

instance instDecidableNulFree (s : Str) : Decidable (NulFree s) := inferInstanceAs (Decidable (∀ c ∈ s, (0 : UInt8) < c))

structure ManifestKey.NulFree (k : ManifestKey) : Prop where
  bucket : S3lite.NulFree k.bucket
  key : S3lite.NulFree k.key
  versionId : S3lite.NulFree k.versionId

theorem zero_lt_iff_one_le (c : UInt8) : 0 < c ↔ 1 ≤ c := by
  simp only [UInt8.lt_iff_toNat_lt, UInt8.le_iff_toNat_le, UInt8.toNat_zero, UInt8.toNat_one]
  omega

/-- NUL-free keys have distinct row keys. -/
theorem ManifestKey.encode_injective {j k : ManifestKey} (hj : j.NulFree) (hk : k.NulFree)
    (h : j.encode = k.encode) : j = k := by
  obtain ⟨hb, hr⟩ := Word.word_injective hj.bucket hk.bucket h
  obtain ⟨hx, hv⟩ := Word.word_injective hj.key hk.key hr
  cases j; cases k; simp_all

end S3lite
