import LuaBundle.Lua.Literal

/-!
# JSON

A strict reader of JSON text.  Members of an object are kept in their order, repeated ones
included.  A string whose escapes name half of a surrogate pair has no text; it may stand
as a value, but not as the name of a member.
-/

namespace LuaBundle
namespace Json

inductive Value where
  | null
  | boolean (value : Bool)
  | number
  | string (text : Option String)
  | array (items : List Value)
  | object (members : List (String × Value))

/-!
## Blanks and numbers

A reader of numbers gives what follows the number, since its value is not kept.
-/

def isBlank (c : Char) : Bool :=
  c == ' ' || c == '\t' || c == '\n' || c == '\r'

def skipBlanks (text : List Char) : List Char :=
  text.dropWhile isBlank

def afterDigits? (text : List Char) : Option (List Char) :=
  if (text.takeWhile Char.isDigit).isEmpty then none else some (text.dropWhile Char.isDigit)

/-- What follows the whole part of a number: a zero, or digits that start with another. -/
def afterWhole? : List Char → Option (List Char)
  | '0' :: c :: rest => if c.isDigit then none else some (c :: rest)
  | '0' :: [] => some []
  | text => afterDigits? text

def afterFraction? : List Char → Option (List Char)
  | '.' :: rest => afterDigits? rest
  | text => some text

def afterExponent? : List Char → Option (List Char)
  | [] => some []
  | c :: rest =>
      if c = 'e' ∨ c = 'E' then
        match rest with
        | '+' :: digits => afterDigits? digits
        | '-' :: digits => afterDigits? digits
        | digits => afterDigits? digits
      else some (c :: rest)

def afterNumber? (text : List Char) : Option (List Char) := do
  let unsigned :=
    match text with
    | '-' :: rest => rest
    | rest => rest
  afterExponent? (← afterFraction? (← afterWhole? unsigned))

/-!
## Strings

The contents of a string are UTF-16 code units where they are escaped, so a character
beyond the first plane is written as a pair of them.
-/

/-- A piece of a string: a character, or a code unit that an escape names. -/
inductive Unit16 where
  | char (c : Char)
  | code (value : Nat)

def hexQuad? (a b c d : Char) : Option Nat := do
  let a ← Lua.hexDigit? a
  let b ← Lua.hexDigit? b
  let c ← Lua.hexDigit? c
  let d ← Lua.hexDigit? d
  return ((a * 16 + b) * 16 + c) * 16 + d

def escapedChar? (c : Char) : Option Char :=
  match c with
  | '"' => some '"'
  | '\\' => some '\\'
  | '/' => some '/'
  | 'b' => some '\x08'
  | 'f' => some '\x0c'
  | 'n' => some '\n'
  | 'r' => some '\r'
  | 't' => some '\t'
  | _ => none

def stringUnits? : List Char → Option (List Unit16 × List Char)
  | [] => none
  | '"' :: rest => some ([], rest)
  | '\\' :: 'u' :: a :: b :: c :: d :: rest => do
      let value ← hexQuad? a b c d
      let (units, rest) ← stringUnits? rest
      return (.code value :: units, rest)
  | '\\' :: c :: rest => do
      let char ← escapedChar? c
      let (units, rest) ← stringUnits? rest
      return (.char char :: units, rest)
  | c :: rest =>
      if c.toNat < 0x20 then none
      else do
        let (units, rest) ← stringUnits? rest
        return (.char c :: units, rest)

def isHighHalf (value : Nat) : Bool :=
  0xD800 ≤ value && value < 0xDC00

def isLowHalf (value : Nat) : Bool :=
  0xDC00 ≤ value && value < 0xE000

def unitsText? : List Unit16 → Option (List Char)
  | [] => some []
  | .char c :: rest => (unitsText? rest).map (c :: ·)
  | .code high :: .code low :: rest =>
      if isHighHalf high && isLowHalf low then
        (unitsText? rest).map
          (Char.ofNat (0x10000 + (high - 0xD800) * 0x400 + (low - 0xDC00)) :: ·)
      else if isHighHalf high || isLowHalf high then none
      else (unitsText? (.code low :: rest)).map (Char.ofNat high :: ·)
  | .code value :: rest =>
      if isHighHalf value || isLowHalf value then none
      else (unitsText? rest).map (Char.ofNat value :: ·)

def string? (text : List Char) : Option (Option String × List Char) := do
  let (units, rest) ← stringUnits? text
  return ((unitsText? units).map String.ofList, rest)

/-!
## Values

An array or object is read in rounds, each of which consumes text; a nested value stands
behind a bracket.  The length of the text bounds both.
-/

/-- The items of an array after its opening bracket or a comma, in at most `fuel` rounds. -/
def itemsIn (value? : List Char → Option (Value × List Char)) :
    Nat → List Char → Option (List Value × List Char)
  | 0, _ => none
  | fuel + 1, text => do
      let (item, rest) ← value? text
      match skipBlanks rest with
      | ',' :: rest => do
          let (items, rest) ← itemsIn value? fuel rest
          return (item :: items, rest)
      | ']' :: rest => return ([item], rest)
      | _ => none

def member? (value? : List Char → Option (Value × List Char)) (text : List Char) :
    Option ((String × Value) × List Char) :=
  match skipBlanks text with
  | '"' :: rest => do
      let (name, rest) ← string? rest
      let name ← name
      match skipBlanks rest with
      | ':' :: rest => do
          let (value, rest) ← value? rest
          return ((name, value), rest)
      | _ => none
  | _ => none

/-- The members of an object after its opening brace or a comma, in at most `fuel` rounds. -/
def membersIn (value? : List Char → Option (Value × List Char)) :
    Nat → List Char → Option (List (String × Value) × List Char)
  | 0, _ => none
  | fuel + 1, text => do
      let (member, rest) ← member? value? text
      match skipBlanks rest with
      | ',' :: rest => do
          let (members, rest) ← membersIn value? fuel rest
          return (member :: members, rest)
      | '\x7d' :: rest => return ([member], rest)
      | _ => none

def valueIn : Nat → List Char → Option (Value × List Char)
  | 0, _ => none
  | depth + 1, text =>
      match skipBlanks text with
      | 'n' :: 'u' :: 'l' :: 'l' :: rest => some (.null, rest)
      | 't' :: 'r' :: 'u' :: 'e' :: rest => some (.boolean true, rest)
      | 'f' :: 'a' :: 'l' :: 's' :: 'e' :: rest => some (.boolean false, rest)
      | '"' :: rest => (string? rest).map fun (s, rest) => (.string s, rest)
      | '[' :: rest =>
          match skipBlanks rest with
          | ']' :: rest => some (.array [], rest)
          | _ =>
              (itemsIn (valueIn depth) rest.length rest).map fun (items, rest) =>
                (.array items, rest)
      | '\x7b' :: rest =>
          match skipBlanks rest with
          | '\x7d' :: rest => some (.object [], rest)
          | _ =>
              (membersIn (valueIn depth) rest.length rest).map fun (members, rest) =>
                (.object members, rest)
      | text => (afterNumber? text).map fun rest => (.number, rest)

def read? (text : List Char) : Option Value :=
  match valueIn (text.length + 1) text with
  | some (value, rest) => if (skipBlanks rest).isEmpty then some value else none
  | none => none

end Json
end LuaBundle
