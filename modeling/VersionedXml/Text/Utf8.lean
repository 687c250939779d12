import VersionedXml.Bytes

/-!
# Decoding UTF-8

Bytes are decoded character by character.  Where no character stands, the longest beginning of
one is taken as a single ill-formed stretch.  Strict decoding refuses such a stretch, and lossy
decoding writes the replacement character for it.
-/

namespace VersionedXml.Text

/-- What a lead byte announces: its own share of the code point, the range of the byte after it,
and how many bytes continue the character after that. -/
structure Lead where
  share : Nat
  low : UInt8
  high : UInt8
  further : Nat
  deriving Repr

/-- The lead bytes of characters of two, three and four bytes.  The narrower ranges of the second
byte exclude overlong forms, surrogates, and code points past the last. -/
def lead? (b : UInt8) : Option Lead :=
  let code := b.toNat
  if 0xc2 ≤ code ∧ code ≤ 0xdf then some ⟨code - 0xc0, 0x80, 0xbf, 0⟩
  else if code = 0xe0 then some ⟨0, 0xa0, 0xbf, 1⟩
  else if code = 0xed then some ⟨0xd, 0x80, 0x9f, 1⟩
  else if 0xe1 ≤ code ∧ code ≤ 0xef then some ⟨code - 0xe0, 0x80, 0xbf, 1⟩
  else if code = 0xf0 then some ⟨0, 0x90, 0xbf, 2⟩
  else if code = 0xf4 then some ⟨4, 0x80, 0x8f, 2⟩
  else if 0xf1 ≤ code ∧ code ≤ 0xf3 then some ⟨code - 0xf0, 0x80, 0xbf, 2⟩
  else none

def addShare (code : Nat) (b : UInt8) : Nat :=
  code * 0x40 + b.toNat % 0x40

/-- Reads the last `count` bytes of a character whose code point is `code` so far.  The bytes that
do not belong to the character are given back. -/
def readFurther : Nat → Nat → Bytes → Option Char × Bytes
  | 0, code, rest => (some (Char.ofNat code), rest)
  | _ + 1, _, [] => (none, [])
  | count + 1, code, b :: rest =>
      if Byte.isContinuation b then readFurther count (addShare code b) rest else (none, b :: rest)

def readChar (b : UInt8) (rest : Bytes) : Option Char × Bytes :=
  if b < 0x80 then
    (some (Char.ofNat b.toNat), rest)
  else
    match lead? b, rest with
    | some lead, second :: rest =>
        if lead.low ≤ second ∧ second ≤ lead.high then
          readFurther lead.further (addShare lead.share second) rest
        else
          (none, second :: rest)
    | _, _ => (none, rest)

theorem length_readFurther (count code : Nat) (bytes : Bytes) :
    (readFurther count code bytes).2.length ≤ bytes.length := by
  induction count generalizing code bytes with
  | zero => simp [readFurther]
  | succ count ih =>
      cases bytes with
      | nil => simp [readFurther]
      | cons b rest =>
          simp only [readFurther]
          split
          · have := ih (addShare code b) rest
            simp only [List.length_cons]
            omega
          · simp

/-- Reading a character gives back no more than the bytes behind its first one. -/
theorem length_readChar (b : UInt8) (rest : Bytes) :
    (readChar b rest).2.length ≤ rest.length := by
  unfold readChar
  split
  · simp
  · split
    · split
      · rename_i lead second rest _ _
        have := length_readFurther lead.further (addShare lead.share second) rest
        simp only [List.length_cons]
        omega
      · simp
    · simp

/-- Decodes bytes behind the characters that are already known; an ill-formed stretch is
recorded as no character. -/
def decodeOnto (known : Array (Option Char)) : Bytes → Array (Option Char)
  | [] => known
  | b :: rest => decodeOnto (known.push (readChar b rest).1) (readChar b rest).2
  termination_by bytes => bytes.length
  decreasing_by
    have := length_readChar b rest
    simp only [List.length_cons]
    omega

def decode (bytes : Bytes) : List (Option Char) :=
  (decodeOnto #[] bytes).toList

def decodeStrict? (bytes : Bytes) : Option String :=
  ((decode bytes).mapM id).map String.ofList

def decodeLossy (bytes : Bytes) : String :=
  String.ofList ((decode bytes).map fun char? => char?.getD '\uFFFD')

def encode (text : String) : Bytes :=
  text.toUTF8.data.toList

end VersionedXml.Text
