import LuaBundle.Text.Utf8

/-!
# String literals

The bytes a string literal denotes, computed from its text with the delimiters.  A literal
in long brackets denotes its contents as they stand, without a line break directly after
the opening bracket.  In a quoted literal a backslash starts an escape.
-/

namespace LuaBundle
namespace Lua

open Text

/-!
## Long brackets
-/

def bracketLevel : List Char → Nat
  | [] => 0
  | c :: rest => if c.utf8Size = 1 then (rest.takeWhile (· == '=')).length else 0

def longBracketContents (raw : List Char) : List Char :=
  let delimiter := bracketLevel raw + 2
  (byteSlice? raw delimiter (byteLength raw - delimiter)).getD []

def dropLineBreak : List Char → List Char
  | '\r' :: '\n' :: rest => rest
  | '\n' :: '\r' :: rest => rest
  | '\n' :: rest => rest
  | '\r' :: rest => rest
  | text => text

/-!
## Escapes

An escape stands for bytes: those of a control character, a byte given by its number, or the
bytes of a code point.  A report names an escape without meaning by the text that it shows.
-/

inductive BadEscape where
  /-- The literal ends after the backslash. -/
  | unfinished
  /-- Two hexadecimal digits are missing. -/
  | hexDigits
  /-- A code point is not in braces. -/
  | noBrace
  /-- The braces hold something other than hexadecimal digits, or nothing. -/
  | codePoint
  /-- A code point that would reach 2^31; the value read before the digit that does it. -/
  | tooLarge (value : Nat)
  /-- A decimal number above 255. -/
  | decimal (value : Nat)
  /-- A letter with no meaning. -/
  | unknown (letter : Char)
deriving DecidableEq, Repr

def upperHex (n : Nat) : List Char :=
  (Nat.toDigits 16 n).map Char.toUpper

def BadEscape.sequence : BadEscape → String
  | .unfinished => "\\"
  | .hexDigits => "\\x"
  | .noBrace => "\\u"
  | .codePoint => "\\u\x7b"
  | .tooLarge value => "\\u\x7b" ++ String.ofList (upperHex value) ++ "...: UTF-8 value too large"
  | .decimal value => "\\" ++ toString value
  | .unknown letter => String.ofList ['\\', letter]

def hexDigit? (c : Char) : Option Nat :=
  if '0' ≤ c ∧ c ≤ '9' then some (c.toNat - '0'.toNat)
  else if 'a' ≤ c ∧ c ≤ 'f' then some (c.toNat - 'a'.toNat + 10)
  else if 'A' ≤ c ∧ c ≤ 'F' then some (c.toNat - 'A'.toNat + 10)
  else none

def decimalDigit? (c : Char) : Option Nat :=
  if '0' ≤ c ∧ c ≤ '9' then some (c.toNat - '0'.toNat) else none

def isEscapeBlank (c : Char) : Bool :=
  c == ' ' || c == '\t' || c == '\n' || c == '\r' || c == '\x0b' || c == '\x0c'

/-- The continuation bytes of a code, its last six bits last, until what is left fits into
a lead byte that keeps `room` as its largest value.  Six steps use up a word. -/
def extendedTail : Nat → UInt32 → UInt32 → Bytes → UInt32 × UInt32 × Bytes
  | 0, code, room, tail => (code, room, tail)
  | fuel + 1, code, room, tail =>
      let tail := (0x80 ||| (code &&& 0x3F).toUInt8) :: tail
      let code := code >>> 6
      let room := room >>> 1
      if code ≤ room then (code, room, tail) else extendedTail fuel code room tail

/-- A code below 2^31 in UTF-8 extended to sequences of up to six bytes.  The lead byte starts
with the ones that its room leaves, cut off at eight bits. -/
def extendedUtf8 (code : UInt32) : Bytes :=
  if code < 0x80 then
    [code.toUInt8]
  else
    let (code, room, tail) := extendedTail 6 code 0x3F []
    (((~~~room) <<< 1) ||| code).toUInt8 :: tail

/-- Reads the hexadecimal digits of a code point on top of a value and a count of digits, and
gives both and what follows.  A digit after a value of 2^27 or more is one too many. -/
def codePointDigits : Nat → Nat → List Char → Except BadEscape (Nat × Nat × List Char)
  | code, count, [] => .ok (code, count, [])
  | code, count, c :: rest =>
      match hexDigit? c with
      | none => .ok (code, count, c :: rest)
      | some digit =>
          if 0x7FFFFFF < code then
            .error (.tooLarge code)
          else
            codePointDigits (code * 16 + digit) (count + 1) rest

def moreDecimalDigits : Nat → Nat → List Char → Nat × List Char
  | 0, value, text => (value, text)
  | _ + 1, value, [] => (value, [])
  | n + 1, value, c :: rest =>
      match decimalDigit? c with
      | some digit => moreDecimalDigits n (value * 10 + digit) rest
      | none => (value, c :: rest)

/-- The bytes an escape stands for and what follows it, given the text after the
backslash. -/
def escape : List Char → Except BadEscape (Bytes × List Char)
  | [] => .error .unfinished
  | 'n' :: rest => .ok ([0x0A], rest)
  | 't' :: rest => .ok ([0x09], rest)
  | 'r' :: rest => .ok ([0x0D], rest)
  | 'a' :: rest => .ok ([0x07], rest)
  | 'b' :: rest => .ok ([0x08], rest)
  | 'f' :: rest => .ok ([0x0C], rest)
  | 'v' :: rest => .ok ([0x0B], rest)
  | '\\' :: rest => .ok ([0x5C], rest)
  | '"' :: rest => .ok ([0x22], rest)
  | '\'' :: rest => .ok ([0x27], rest)
  | '\n' :: '\r' :: rest => .ok ([0x0A], rest)
  | '\n' :: rest => .ok ([0x0A], rest)
  | '\r' :: '\n' :: rest => .ok ([0x0A], rest)
  | '\r' :: rest => .ok ([0x0A], rest)
  | 'z' :: rest => .ok ([], rest.dropWhile isEscapeBlank)
  | 'x' :: high :: low :: rest =>
      match hexDigit? high, hexDigit? low with
      | some high, some low => .ok ([(high * 16 + low).toUInt8], rest)
      | _, _ => .error .hexDigits
  | 'x' :: _ => .error .hexDigits
  | 'u' :: '\x7b' :: rest => do
      match ← codePointDigits 0 0 rest with
      | (code, _ + 1, '\x7d' :: rest) => .ok (extendedUtf8 code.toUInt32, rest)
      | _ => .error .codePoint
  | 'u' :: _ => .error .noBrace
  | c :: rest =>
      match decimalDigit? c with
      | none => .error (.unknown c)
      | some digit =>
          let (value, rest) := moreDecimalDigits 2 digit rest
          if value < 0x100 then .ok ([value.toUInt8], rest) else .error (.decimal value)

/-!
## Values

The contents of a quoted literal are read from left to right; a step consumes at least one
character, so as many steps as there are characters are enough.
-/

/-- The bytes of the contents of a quoted literal, read in at most `fuel` steps. -/
def quotedBytesIn (encoding : Encoding) : Nat → List Char → Except BadEscape Bytes
  | _, [] => .ok []
  | 0, _ :: _ => .ok []
  | fuel + 1, '\\' :: rest => do
      let (bytes, rest) ← escape rest
      return bytes ++ (← quotedBytesIn encoding fuel rest)
  | fuel + 1, c :: rest =>
      return encoding.charBytes c ++ (← quotedBytesIn encoding fuel rest)

def quotedBytes (encoding : Encoding) (contents : List Char) : Except BadEscape Bytes :=
  quotedBytesIn encoding contents.length contents

/-- A literal without its first and its last byte, empty where these are no characters. -/
def quotedContents (raw : List Char) : List Char :=
  (byteSlice? raw 1 (byteLength raw - 1)).getD []

def literalBytes (encoding : Encoding) (raw : List Char) : Except BadEscape Bytes :=
  match raw with
  | '[' :: _ => .ok (encoding.toBytes (dropLineBreak (longBracketContents raw)))
  | _ => quotedBytes encoding (quotedContents raw)

end Lua
end LuaBundle
