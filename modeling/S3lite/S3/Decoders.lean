/-
  S3lite.S3.Decoders — the five percent decoders of the source, each an index loop of its own.

  `percent_decoders_sound`: each ends, reads inside its input only, undoes
  `url_percent_encode` on all text, and leaves a malformed escape as it is. What the handlers
  are modelled with (`percentDecode`) is what the loops compute (`decodeString_eq`).
-/
import S3lite.Base.Decoder
import S3lite.S3.Listing

namespace S3lite

/-- The loop over all of the string, and `from_utf8_lossy` of what it wrote. -/
def decodeString (plus : Bool) (s : Str) : Option Str := (decodeLoop plus s s.length 0 []).map fromUtf8Lossy

/-- `url_percent_decode` of src/s3/listing.rs -/
def Listing.urlPercentDecode (s : Str) : Option Str := decodeString true s

/-- `percent_decode` of src/s3/dispatch.rs -/
def Dispatch.percentDecode (s : Str) : Option Str := decodeString false s

/-- `percent_decode` of src/s3/copy.rs -/
def Copy.percentDecode (s : Str) : Option Str := decodeString false s

/-- `percent_decode_str` of src/http/middleware/presigned.rs -/
def Presigned.percentDecodeStr (s : Str) : Option Str := decodeString false s

/-- `percent_decode` of src/s3/tagging.rs -/
def Tagging.percentDecode (s : Str) : Option Str := decodeString true s

def percentDecoders : List (Str → Option Str) :=
  [Listing.urlPercentDecode, Dispatch.percentDecode, Copy.percentDecode, Presigned.percentDecodeStr, Tagging.percentDecode]

theorem decodeString_eq (plus : Bool) (s : Str) : decodeString plus s = some (percentDecode plus s) := by
  rw [decodeString, decodeLoop_eq]
  rfl

/-- What each decoder does. -/
structure SoundDecoder (decode : Str → Option Str) : Prop where
  /-- It ends and has read inside the string. -/
  total : ∀ s, (decode s).isSome
  restores : ∀ s, IsUtf8 s → decode (urlPercentEncode s) = some s
  /-- A `%` without two digits is kept, and what is around it decoded as if it stood alone. -/
  malformed : ∀ a b, StartsHex b = false →
    decode (a ++ 37 :: b) = (decode a).bind fun a => (decode b).map fun b => a ++ 37 :: b

theorem decodeString_sound (plus : Bool) : SoundDecoder (decodeString plus) where
  total s := by
    rw [decodeString_eq]
    rfl
  restores s hs := by
    obtain ⟨cs, rfl⟩ := hs
    have hbytes : percentBytes plus (urlPercentEncode (cs.flatMap String.utf8EncodeChar)) = cs.flatMap String.utf8EncodeChar :=
      percentBytes_percentEncode rfl (fun _ => rfl) _
    rw [decodeString_eq, percentDecode, hbytes, fromUtf8Lossy_utf8]
  malformed a b h := by
    rw [decodeString_eq, decodeString_eq, decodeString_eq, percentDecode_append_percent a h]
    rfl

theorem percent_decoders_sound {decode : Str → Option Str} (h : decode ∈ percentDecoders) : SoundDecoder decode := by
  have hloop : ∃ plus, decode = decodeString plus := by
    simp only [percentDecoders, List.mem_cons, List.not_mem_nil, or_false] at h
    rcases h with rfl | rfl | rfl | rfl | rfl
    · exact ⟨true, rfl⟩
    · exact ⟨false, rfl⟩
    · exact ⟨false, rfl⟩
    · exact ⟨false, rfl⟩
    · exact ⟨true, rfl⟩
  obtain ⟨plus, rfl⟩ := hloop
  exact decodeString_sound plus

theorem percent_decoders_sound_copy : SoundDecoder Copy.percentDecode :=
  percent_decoders_sound (by simp [percentDecoders])

end S3lite
