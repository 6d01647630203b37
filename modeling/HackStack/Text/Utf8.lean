import HackStack.Text.Basic

/-!
# UTF-8

Decoding of the bytes of a file, one byte at a time: the bytes of an unfinished
character wait in `pending`. A byte that no character can start with, a byte that
cannot go on with the character begun, and an end of data inside a character are
the three faults; a fault names the bytes of the character it breaks off and the
position of the first of them.

Bytes are decoded as a whole (`decode`) or in blocks (`decodeBlocks`), as a reader
does that takes a long file piece by piece. The texts are the same, but a fault in
blocks counts its position from the first byte held when it was met: the bytes left
pending by the block before, then the block itself, and at the end of the data the
pending bytes alone.
-/

namespace HackStack.Text.Utf8

/-- The content of a file. -/
abbrev Bytes := List UInt8

/-- What is wrong at a place that is not UTF-8. -/
inductive Fault where
  /-- No character starts with this byte. -/
  | start
  /-- The character begun does not go on with the next byte. -/
  | continuation
  /-- The data end inside a character. -/
  | truncated
  deriving DecidableEq, Repr

/-- The wording of a fault. -/
def Fault.reason : Fault → String
  | .start => "invalid start byte"
  | .continuation => "invalid continuation byte"
  | .truncated => "unexpected end of data"

/-- A failure to decode: the fault, the bytes of the broken character and the position
of its first byte. -/
structure DecodeError where
  fault : Fault
  position : Nat
  bytes : Bytes
  deriving DecidableEq, Repr

/-- The message of a decoding failure: one byte is shown, of several the span. -/
def DecodeError.message (e : DecodeError) : String :=
  let place :=
    match e.bytes with
    | [b] =>
      "byte 0x" ++ String.ofList ((Nat.toDigits 16 b.toNat).leftpad 2 '0') ++ " in position "
        ++ toString e.position
    | bs =>
      "bytes in position " ++ toString e.position ++ "-" ++ toString (e.position + bs.length - 1)
  "'utf-8' codec can't decode " ++ place ++ ": " ++ e.fault.reason

/-- What a sequence of bytes amounts to. -/
inductive Reading where
  /-- A whole character. -/
  | char (c : Char)
  /-- The start of a character. -/
  | unfinished
  /-- Neither of the two, on account of the last byte. -/
  | broken
  deriving DecidableEq, Repr

/-- Whether `b` lies between `lo` and `hi`. -/
def within (lo hi b : UInt8) : Bool := lo ≤ b && b ≤ hi

/-- Whether `b` continues a character. -/
def isContinuation (b : UInt8) : Bool := within 0x80 0xbf b

/-- Whether `b` may be the second byte after the lead byte `a`: surrogates, codes beyond
the last plane and longer spellings of shorter codes are ruled out here. -/
def isSecond (a b : UInt8) : Bool :=
  if a == 0xe0 then within 0xa0 0xbf b
  else if a == 0xed then within 0x80 0x9f b
  else if a == 0xf0 then within 0x90 0xbf b
  else if a == 0xf4 then within 0x80 0x8f b
  else isContinuation b

/-- The payload of a continuation byte. -/
def payload (b : UInt8) : Nat := b.toNat - 0x80

/-- Read a sequence whose bytes but the last are the start of a character. -/
def read : Bytes → Reading
  | [a] =>
    if a < 0x80 then .char (Char.ofNat a.toNat)
    else if within 0xc2 0xf4 a then .unfinished
    else .broken
  | [a, b] =>
    if !isSecond a b then .broken
    else if a < 0xe0 then .char (Char.ofNat ((a.toNat - 0xc0) * 0x40 + payload b))
    else .unfinished
  | [a, b, c] =>
    if !isContinuation c then .broken
    else if a < 0xf0 then
      .char (Char.ofNat (((a.toNat - 0xe0) * 0x40 + payload b) * 0x40 + payload c))
    else .unfinished
  | [a, b, c, d] =>
    if !isContinuation d then .broken
    else
      .char (Char.ofNat
        ((((a.toNat - 0xf0) * 0x40 + payload b) * 0x40 + payload c) * 0x40 + payload d))
  | _ => .broken

/-- Whether two bytes are the start of a surrogate's code, which no character has. Such a
pair at the end of a block is only judged with the next block. -/
def isSurrogateStart : Bytes → Bool
  | [a, b] => a == 0xed && within 0xa0 0xbf b
  | _ => false

/-- Decode a stretch of bytes after those of `pending`, the first of which has position
`start`, and put the characters before the reversed text `acc`. The result is the
extended text and the bytes left pending. Only the last stretch may not leave any. -/
def decodeOnto (last : Bool) (start : Nat) (pending : Bytes) (acc : Text) :
    Bytes → Except DecodeError (Text × Bytes)
  | [] =>
    if last && !pending.isEmpty then .error ⟨.truncated, start, pending⟩ else .ok (acc, pending)
  | b :: rest =>
    let held := pending ++ [b]
    match read held with
    | .char c => decodeOnto last (start + held.length) [] (c :: acc) rest
    | .unfinished => decodeOnto last start held acc rest
    | .broken =>
      if pending.isEmpty then .error ⟨.start, start, [b]⟩
      else if !last && rest.isEmpty && isSurrogateStart held then .ok (acc, held)
      else .error ⟨.continuation, start, pending⟩

/-- Decode bytes as a whole. -/
def decode (bytes : Bytes) : Except DecodeError Text :=
  (decodeOnto true 0 [] [] bytes).map fun r => r.1.reverse

/-- Cut bytes into blocks of `size`, the last of which may be shorter. The fuel bounds the
number of blocks. -/
def blocks (size : Nat) : Nat → Bytes → List Bytes
  | _, [] => []
  | 0, bytes => [bytes]
  | fuel + 1, bytes => bytes.take size :: blocks size fuel (bytes.drop size)

/-- Decode blocks one after the other, with the bytes that each leaves pending before the
next. -/
def decodeBlocksOnto (pending : Bytes) (acc : Text) : List Bytes → Except DecodeError Text
  | [] => (decodeOnto true 0 [] acc pending).map fun r => r.1.reverse
  | block :: more =>
    match decodeOnto false 0 [] acc (pending ++ block) with
    | .error e => .error e
    | .ok (acc, pending) => decodeBlocksOnto pending acc more

/-- The size of the blocks in which a file is read line by line. -/
def blockSize : Nat := 8192

/-- Decode bytes in blocks of `blockSize`. -/
def decodeBlocks (bytes : Bytes) : Except DecodeError Text :=
  decodeBlocksOnto [] [] (blocks blockSize bytes.length bytes)

/-- The bytes of a text. -/
def encode (t : Text) : Bytes := (String.ofList t).toUTF8.toList

end HackStack.Text.Utf8
