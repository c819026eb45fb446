/-!
# UTF-8

The bytes of a character and the reading of a byte string.  One decoder marks the places
where the bytes are not UTF-8; strict reading refuses such a place, and lossy reading puts
the replacement character there.  A mark stands for the longest run of bytes that starts a
sequence and could still have been completed, or else for a single byte.
-/

namespace LuaBundle
namespace Text

abbrev Bytes := List UInt8

def utf8Char (c : Char) : Bytes :=
  String.utf8EncodeChar c

def utf8 (text : List Char) : Bytes :=
  text.flatMap utf8Char

/-!
## Decoding

A sequence under way remembers the value read so far, how many bytes are owed after the
next one, and the range the next one must lie in.
-/

structure Pending where
  value : Nat
  owedAfter : Nat
  low : UInt8
  high : UInt8
deriving DecidableEq, Repr

def Pending.ofLead (b : UInt8) : Option Pending :=
  if b < 0xC2 then none
  else if b < 0xE0 then some ⟨b.toNat - 0xC0, 0, 0x80, 0xBF⟩
  else if b = 0xE0 then some ⟨0, 1, 0xA0, 0xBF⟩
  else if b = 0xED then some ⟨0x0D, 1, 0x80, 0x9F⟩
  else if b < 0xF0 then some ⟨b.toNat - 0xE0, 1, 0x80, 0xBF⟩
  else if b = 0xF0 then some ⟨0, 2, 0x90, 0xBF⟩
  else if b < 0xF4 then some ⟨b.toNat - 0xF0, 2, 0x80, 0xBF⟩
  else if b = 0xF4 then some ⟨4, 2, 0x80, 0x8F⟩
  else none

def Pending.accepts (p : Pending) (b : UInt8) : Bool :=
  p.low ≤ b && b ≤ p.high

def Pending.valueWith (p : Pending) (b : UInt8) : Nat :=
  p.value * 64 + (b.toNat - 0x80)

def decodeFrom : Option Pending → Bytes → List (Option Char)
  | none, [] => []
  | some _, [] => [none]
  | pending, b :: rest =>
      let start : List (Option Char) :=
        if b < 0x80 then
          some (Char.ofNat b.toNat) :: decodeFrom none rest
        else
          match Pending.ofLead b with
          | some p => decodeFrom (some p) rest
          | none => none :: decodeFrom none rest
      match pending with
      | none => start
      | some p =>
          if p.accepts b then
            match p.owedAfter with
            | 0 => some (Char.ofNat (p.valueWith b)) :: decodeFrom none rest
            | n + 1 => decodeFrom (some ⟨p.valueWith b, n, 0x80, 0xBF⟩) rest
          else
            none :: start

def ofUtf8? (bytes : Bytes) : Option (List Char) :=
  (decodeFrom none bytes).mapM id

def replacement : Char :=
  '\uFFFD'

/-- The text of a byte string, with a replacement character wherever it is not UTF-8. -/
def ofUtf8Lossy (bytes : Bytes) : List Char :=
  (decodeFrom none bytes).map (Option.getD · replacement)

/-!
## Source encodings

A script has no required encoding.  Read as text, a character stands for its UTF-8 bytes.
Read as bytes, every byte becomes the character of the same number, and a character below
U+0100 stands for exactly that byte again; larger characters, which no such reading
produces, stand for their UTF-8 bytes.
-/

/-- How the characters of a source stand for bytes. -/
inductive Encoding where
  | utf8
  | bytes
deriving DecidableEq, Repr

/-- The bytes a character of a source stands for. -/
def Encoding.charBytes : Encoding → Char → Bytes
  | .utf8, c => utf8Char c
  | .bytes, c => if c.toNat < 0x100 then [c.toNat.toUInt8] else utf8Char c

def Encoding.toBytes (encoding : Encoding) (text : List Char) : Bytes :=
  text.flatMap encoding.charBytes

def ofBytes (bytes : Bytes) : List Char :=
  bytes.map fun b => Char.ofNat b.toNat

def toBytes (text : List Char) : Bytes :=
  Encoding.bytes.toBytes text

/-!
## Slices by byte position

Positions count the bytes of a text in UTF-8.  A slice exists when both ends lie within the
text, in order, and between two characters.
-/

def byteLength (text : List Char) : Nat :=
  text.foldr (fun c n => c.utf8Size + n) 0

def dropBytes? : Nat → List Char → Option (List Char)
  | 0, text => some text
  | _ + 1, [] => none
  | n + 1, c :: rest =>
      if c.utf8Size ≤ n + 1 then dropBytes? (n + 1 - c.utf8Size) rest else none

def takeBytes? : Nat → List Char → Option (List Char)
  | 0, _ => some []
  | _ + 1, [] => none
  | n + 1, c :: rest =>
      if c.utf8Size ≤ n + 1 then (takeBytes? (n + 1 - c.utf8Size) rest).map (c :: ·) else none

def byteSlice? (text : List Char) (start stop : Nat) : Option (List Char) :=
  if start ≤ stop then
    (dropBytes? start text).bind (takeBytes? (stop - start))
  else
    none

end Text
end LuaBundle
