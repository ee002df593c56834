/-
  S3lite.Base.Text — the string functions of the Rust standard library the handlers use, on
  UTF-8 bytes: integer parsing, splitting, trimming and lossy decoding.
-/
import S3lite.Base.Bytes

namespace S3lite

/-- `str::parse` at an unsigned type of the given bound: an optional `+`, then digits. -/
def parseUnsigned (bound : Nat) (s : Bytes) : Option Nat :=
  let digits := match s with
    | 43 :: rest => rest
    | _ => s
  if digits.isEmpty then none
  else digits.foldl (fun acc c => acc.bind fun n =>
    if 48 ≤ c ∧ c ≤ 57 then
      let n := 10 * n + (c.toNat - 48)
      if n < bound then some n else none
    else none) (some 0)

/-- `split_once` at a byte. -/
def splitOnce (c : UInt8) : Bytes → Option (Bytes × Bytes)
  | [] => none
  | d :: s => if d = c then some ([], s) else (splitOnce c s).map fun r => (d :: r.1, r.2)

/-- `split` at a byte. -/
def splitByte (c : UInt8) : Bytes → List Bytes
  | [] => [[]]
  | d :: s =>
    match splitByte c s with
    | [] => [[d]]
    | p :: ps => if d = c then [] :: p :: ps else (d :: p) :: ps

def stripPrefix (p s : Bytes) : Option Bytes := if p <+: s then some (s.drop p.length) else none

/-- The encodings of the characters with the Unicode property White_Space. -/
def whitespace : List Bytes :=
  [[9], [10], [11], [12], [13], [32], [0xc2, 0x85], [0xc2, 0xa0], [0xe1, 0x9a, 0x80], [0xe2, 0x80, 0x80],
    [0xe2, 0x80, 0x81], [0xe2, 0x80, 0x82], [0xe2, 0x80, 0x83], [0xe2, 0x80, 0x84], [0xe2, 0x80, 0x85],
    [0xe2, 0x80, 0x86], [0xe2, 0x80, 0x87], [0xe2, 0x80, 0x88], [0xe2, 0x80, 0x89], [0xe2, 0x80, 0x8a],
    [0xe2, 0x80, 0xa8], [0xe2, 0x80, 0xa9], [0xe2, 0x80, 0xaf], [0xe2, 0x81, 0x9f], [0xe3, 0x80, 0x80]]

/-- Drop leading patterns, at most as many as given. -/
def dropLeading (pats : List Bytes) : Nat → Bytes → Bytes
  | 0, s => s
  | n + 1, s =>
    match pats.findSome? fun p => stripPrefix p s with
    | some rest => dropLeading pats n rest
    | none => s

/-- `str::trim` -/
def trim (s : Bytes) : Bytes :=
  let s := dropLeading whitespace s.length s
  (dropLeading (whitespace.map List.reverse) s.length s.reverse).reverse

/-- `eq_ignore_ascii_case` -/
def toAsciiLower (s : Bytes) : Bytes := s.map fun c => if 65 ≤ c ∧ c ≤ 90 then c + 32 else c

def hexNibble (b : UInt8) : Option UInt8 :=
  if 48 ≤ b ∧ b ≤ 57 then some (b - 48)
  else if 97 ≤ b ∧ b ≤ 102 then some (b - 97 + 10)
  else if 65 ≤ b ∧ b ≤ 70 then some (b - 65 + 10)
  else none

/-! ## `String::from_utf8_lossy` -/

def isContinuation (b : UInt8) : Bool := 0x80 ≤ b && b ≤ 0xbf

/-- The bytes a decoder may see after the first byte of a sequence: the range of the second
    byte and how many continuation bytes follow it. -/
def utf8Tail (b : UInt8) : Option (UInt8 × UInt8 × Nat) :=
  if 0xc2 ≤ b ∧ b ≤ 0xdf then some (0x80, 0xbf, 0)
  else if b = 0xe0 then some (0xa0, 0xbf, 1)
  else if b = 0xed then some (0x80, 0x9f, 1)
  else if 0xe1 ≤ b ∧ b ≤ 0xef then some (0x80, 0xbf, 1)
  else if b = 0xf0 then some (0x90, 0xbf, 2)
  else if 0xf1 ≤ b ∧ b ≤ 0xf3 then some (0x80, 0xbf, 2)
  else if b = 0xf4 then some (0x80, 0x8f, 2)
  else none

/-- How many bytes the first sequence takes, and whether it is well formed: a malformed one
    takes its longest well-formed start, or one byte. -/
def utf8Step (b : UInt8) (rest : Bytes) : Nat × Bool :=
  if b < 0x80 then (1, true)
  else match utf8Tail b with
    | none => (1, false)
    | some (lo, hi, more) =>
      match rest with
      | [] => (1, false)
      | c :: cs =>
        if lo ≤ c ∧ c ≤ hi then
          let got := (cs.take more).takeWhile isContinuation
          (2 + got.length, got.length = more)
        else (1, false)

def fromUtf8LossyAux : Nat → Bytes → Bytes
  | 0, _ => []
  | _ + 1, [] => []
  | n + 1, b :: rest =>
    let r := utf8Step b rest
    (if r.2 then (b :: rest).take r.1 else [0xef, 0xbf, 0xbd]) ++ fromUtf8LossyAux n ((b :: rest).drop r.1)

def fromUtf8Lossy (s : Bytes) : Bytes := fromUtf8LossyAux s.length s

/-! ## Percent decoding -/

/-- The bytes a percent-encoded string stands for; with `plus`, a `+` stands for a space. -/
def percentBytes (plus : Bool) : Bytes → Bytes
  | [] => []
  | 37 :: hi :: lo :: s =>
    match hexNibble hi, hexNibble lo with
    | some h, some l => (h * 16 + l) :: percentBytes plus s
    | _, _ => 37 :: percentBytes plus (hi :: lo :: s)
  | c :: s => (if plus && c == 43 then 32 else c) :: percentBytes plus s

/-- `percent_decode` -/
def percentDecode (plus : Bool) (s : Bytes) : Bytes := fromUtf8Lossy (percentBytes plus s)

end S3lite
