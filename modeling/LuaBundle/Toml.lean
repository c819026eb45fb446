import LuaBundle.Lua.Literal

/-!
# TOML documents of plain settings

A reader of TOML documents whose keys have no dots and whose values are booleans, strings
and arrays of strings.  It refuses every other document, whether it is TOML or not: tables,
numbers and dates are no settings.
-/

namespace LuaBundle
namespace Toml

inductive Value where
  | boolean (value : Bool)
  | string (text : List Char)
  | strings (texts : List (List Char))
deriving DecidableEq, Repr

/-!
## Blanks, comments and line ends

A comment runs to the end of its line.
-/

def isPad (c : Char) : Bool :=
  c == ' ' || c == '\t'

def skipPads (text : List Char) : List Char :=
  text.dropWhile isPad

/-- A character that may stand in a comment or a string: no control character but the tab. -/
def isPlain (c : Char) : Bool :=
  c == '\t' || (0x20 ≤ c.toNat && c.toNat != 0x7F)

def afterBreak? : List Char → Option (List Char)
  | '\n' :: rest => some rest
  | '\r' :: '\n' :: rest => some rest
  | _ => none

def skipComment (text : List Char) : List Char :=
  match skipPads text with
  | '#' :: rest => rest.dropWhile isPlain
  | rest => rest

def afterLine? (text : List Char) : Option (List Char) :=
  match skipComment text with
  | [] => some []
  | rest => afterBreak? rest

/-- A text without the blanks, comments and line breaks it starts with, of which at most
`fuel` lines are skipped. -/
def skipLines : Nat → List Char → List Char
  | 0, text => text
  | fuel + 1, text =>
      match afterBreak? (skipComment text) with
      | some rest => skipLines fuel rest
      | none => skipComment text

/-!
## Strings

A string stands in one or in three quotes of either kind; only double quotes have escapes, and
only three quotes span lines.
-/

def scalar? (n : Nat) : Option Char :=
  if h : n.isValidChar then some (Char.ofNatAux n h) else none

def hexNumber? (digits : List Char) : Option Nat :=
  digits.foldlM (fun n c => (Lua.hexDigit? c).map fun digit => n * 16 + digit) 0

/-- The character an escape stands for, and what follows it, given the text after the
backslash. -/
def escape? : List Char → Option (Char × List Char)
  | 'b' :: rest => some ('\x08', rest)
  | 't' :: rest => some ('\t', rest)
  | 'n' :: rest => some ('\n', rest)
  | 'f' :: rest => some ('\x0c', rest)
  | 'r' :: rest => some ('\r', rest)
  | '"' :: rest => some ('"', rest)
  | '\\' :: rest => some ('\\', rest)
  | 'u' :: rest => do
      if rest.length < 4 then none
      else return (← scalar? (← hexNumber? (rest.take 4)), rest.drop 4)
  | 'U' :: rest => do
      if rest.length < 8 then none
      else return (← scalar? (← hexNumber? (rest.take 8)), rest.drop 8)
  | _ => none

abbrev Reading := Option (List Char × List Char)

def Reading.after (front : List Char) (reading : Reading) : Reading :=
  reading.map fun (text, rest) => (front ++ text, rest)

def literalString? : List Char → Reading
  | [] => none
  | '\'' :: rest => some ([], rest)
  | c :: rest => if isPlain c then (literalString? rest).after [c] else none

def basicString? : Nat → List Char → Reading
  | 0, _ => none
  | _, [] => none
  | _ + 1, '"' :: rest => some ([], rest)
  | fuel + 1, '\\' :: rest => do
      let (c, rest) ← escape? rest
      (basicString? fuel rest).after [c]
  | fuel + 1, c :: rest => if isPlain c then (basicString? fuel rest).after [c] else none

/-- The end of a string over several lines, if it stands here: three quotes, before which at
most two more belong to the string. -/
def longEnd? (quote : Char) (text : List Char) : Reading :=
  let quotes := (text.takeWhile (· == quote)).length
  if quotes < 3 then none
  else
    let own := min (quotes - 3) 2
    some (List.replicate own quote, text.drop (own + 3))

/-- The rest of a string over several lines in single quotes, in at most `fuel` steps. -/
def longLiteral? : Nat → List Char → Reading
  | 0, _ => none
  | _, [] => none
  | fuel + 1, c :: rest =>
      match longEnd? '\'' (c :: rest), afterBreak? (c :: rest) with
      | some reading, _ => some reading
      | none, some rest => (longLiteral? fuel rest).after ['\n']
      | none, none => if isPlain c then (longLiteral? fuel rest).after [c] else none

def skipFill : List Char → List Char
  | '\r' :: '\n' :: rest => skipFill rest
  | c :: rest => if isPad c || c == '\n' then skipFill rest else c :: rest
  | [] => []

/-- What follows a line break that a backslash takes away with all blanks after it. -/
def afterFold? (text : List Char) : Option (List Char) :=
  (afterBreak? (skipPads text)).map skipFill

/-- The rest of a string over several lines in double quotes, in at most `fuel` steps. -/
def longBasic? : Nat → List Char → Reading
  | 0, _ => none
  | _, [] => none
  | fuel + 1, '\\' :: rest =>
      match afterFold? rest with
      | some rest => longBasic? fuel rest
      | none => do
          let (c, rest) ← escape? rest
          (longBasic? fuel rest).after [c]
  | fuel + 1, c :: rest =>
      match longEnd? '"' (c :: rest), afterBreak? (c :: rest) with
      | some reading, _ => some reading
      | none, some rest => (longBasic? fuel rest).after ['\n']
      | none, none => if isPlain c then (longBasic? fuel rest).after [c] else none

def skipBreak (text : List Char) : List Char :=
  (afterBreak? text).getD text

def shortString? : List Char → Reading
  | '"' :: rest => basicString? (rest.length + 1) rest
  | '\'' :: rest => literalString? rest
  | _ => none

def string? : List Char → Reading
  | '"' :: '"' :: '"' :: rest => longBasic? (rest.length + 1) (skipBreak rest)
  | '\'' :: '\'' :: '\'' :: rest => longLiteral? (rest.length + 1) (skipBreak rest)
  | text => shortString? text

/-!
## Values and keys

A key is bare or a short string, and a setting ends its line.
-/

/-- The strings of an array after its opening bracket, in at most `fuel` rounds. -/
def stringsIn : Nat → List Char → Option (List (List Char) × List Char)
  | 0, _ => none
  | fuel + 1, text =>
      match skipLines (text.length + 1) text with
      | ']' :: rest => some ([], rest)
      | text => do
          let (item, rest) ← string? text
          match skipLines (rest.length + 1) rest with
          | ',' :: rest => do
              let (items, rest) ← stringsIn fuel rest
              return (item :: items, rest)
          | ']' :: rest => return ([item], rest)
          | _ => none

def value? : List Char → Option (Value × List Char)
  | 't' :: 'r' :: 'u' :: 'e' :: rest => some (.boolean true, rest)
  | 'f' :: 'a' :: 'l' :: 's' :: 'e' :: rest => some (.boolean false, rest)
  | '[' :: rest =>
      (stringsIn (rest.length + 1) rest).map fun (items, rest) => (.strings items, rest)
  | text => (string? text).map fun (s, rest) => (.string s, rest)

def isKeyChar (c : Char) : Bool :=
  c.isAlphanum || c == '_' || c == '-'

def key? (text : List Char) : Reading :=
  match shortString? text with
  | some reading => some reading
  | none =>
      let key := text.takeWhile isKeyChar
      if key.isEmpty then none else some (key, text.dropWhile isKeyChar)

def setting? (text : List Char) : Option ((List Char × Value) × List Char) := do
  let (key, rest) ← key? text
  match skipPads rest with
  | '=' :: rest => do
      let (value, rest) ← value? (skipPads rest)
      return ((key, value), ← afterLine? rest)
  | _ => none

/-!
## Documents
-/

def settingsIn : Nat → List Char → Option (List (List Char × Value))
  | 0, _ => none
  | fuel + 1, text =>
      match skipLines (text.length + 1) text with
      | [] => some []
      | text => do
          let (setting, rest) ← setting? text
          return setting :: (← settingsIn fuel rest)

def read? (text : List Char) : Option (List (List Char × Value)) :=
  let text :=
    match text with
    | '\uFEFF' :: rest => rest
    | rest => rest
  settingsIn (text.length + 1) text

end Toml
end LuaBundle
