/-
  S3lite.S3.Checksum — the `x-amz-checksum-*` headers (src/s3/checksum.rs).
-/
import S3lite.S3.Common

namespace S3lite.Checksum

def headerNameFor : ChecksumAlgorithm → Str
  | .crc32 => str "x-amz-checksum-crc32"
  | .crc32c => str "x-amz-checksum-crc32c"
  | .sha1 => str "x-amz-checksum-sha1"
  | .sha256 => str "x-amz-checksum-sha256"

def compute (env : Env) : ChecksumAlgorithm → Bytes → Bytes
  | .crc32 => env.crc32
  | .crc32c => env.crc32c
  | .sha1 => env.sha1
  | .sha256 => env.sha256

def verify (env : Env) (expected : AdditionalChecksum) (data : Bytes) : Except S3Error Unit :=
  if compute env expected.algorithm data = expected.value then .ok ()
  else .error (.new .badDigest (headerNameFor expected.algorithm ++ str " checksum mismatch"))

def encodeValue (env : Env) (value : Bytes) : Str := env.base64Encode value

def expectedLen : ChecksumAlgorithm → Nat
  | .crc32 | .crc32c => 4
  | .sha1 => 20
  | .sha256 => 32

/-- `HEADER_BINDINGS` -/
def headerBindings : List ChecksumAlgorithm := [.crc32, .crc32c, .sha1, .sha256]

/-- The loop over `HEADER_BINDINGS`. -/
def findChecksum (headers : HeaderMap) (found : Option (ChecksumAlgorithm × Str)) :
    List ChecksumAlgorithm → Except S3Error (Option (ChecksumAlgorithm × Str))
  | [] => .ok found
  | algo :: rest =>
    match headers.get (headerNameFor algo) with
    | none => findChecksum headers found rest
    | some v =>
      match toStr v with
      | none => .error (invalidRequest (str "invalid " ++ headerNameFor algo ++ str " header"))
      | some s =>
        if found.isSome then .error (invalidRequest (str "more than one x-amz-checksum-* header supplied"))
        else findChecksum headers (some (algo, s)) rest

def parseRequestChecksum (env : Env) (headers : HeaderMap) : Except S3Error (Option AdditionalChecksum) :=
  match findChecksum headers none headerBindings with
  | .error e => .error e
  | .ok none => .ok none
  | .ok (some (algo, raw)) =>
    match env.base64Decode raw with
    | none => .error (invalidRequest (headerNameFor algo ++ str " checksum is not valid base64"))
    | some bytes =>
      if bytes.length ≠ expectedLen algo then
        .error (invalidRequest (headerNameFor algo ++ str " checksum must be " ++ natStr (expectedLen algo) ++ str " bytes"))
      else .ok (some ⟨algo, bytes⟩)

end S3lite.Checksum
