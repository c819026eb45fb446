import LuaBundle.Text.Characters

/-!
# Lexemes

A source is cut into lexemes: blanks, comments and tokens.  The text of all lexemes in
order is the source, less a byte order mark and an interpreter line at its very start.  A
place where no lexeme fits is an error on its line.
-/

namespace LuaBundle
namespace Lua

open Text

/-- What a lexeme is. -/
inductive Lexeme.Kind where
  | blank
  | lineComment
  | longComment
  | name
  /-- A keyword or a sign. -/
  | reserved
  | string
  | number
  /-- The end of the source. -/
  | finish
deriving DecidableEq, Repr

structure Lexeme where
  kind : Lexeme.Kind
  text : String
  line : Nat
deriving DecidableEq, Repr

/-- A text cut in two. -/
abbrev Cut := List Char × List Char

def Cut.after (front : List Char) (cut : Cut) : Cut :=
  (front ++ cut.1, cut.2)

def cutWhile (inside : Char → Bool) (text : List Char) : Cut :=
  (text.takeWhile inside, text.dropWhile inside)

/-!
## Blanks

Spaces and tabs, and at most one line break after them.
-/

def isPad (c : Char) : Bool :=
  c == ' ' || c == '\t'

def cutLineBreak : List Char → Cut
  | '\n' :: rest => (['\n'], rest)
  | '\r' :: '\n' :: rest => (['\r', '\n'], rest)
  | text => ([], text)

def cutBlank (text : List Char) : Cut :=
  let (pads, rest) := cutWhile isPad text
  (cutLineBreak rest).after pads

/-!
## Names
-/

def isNameStart (c : Char) : Bool :=
  isLetter c || c == '_'

def isNamePart (c : Char) : Bool :=
  isLetter c || isNumber c || c == '_'

def keywords : List String :=
  ["and", "break", "do", "else", "elseif", "end", "false", "for", "function", "goto", "if",
    "in", "local", "nil", "not", "or", "repeat", "return", "then", "true", "until", "while"]

/-!
## Strings

A backslash in a quoted string takes the next character whatever it is.  A line break that
no backslash takes ends the literal in error, except that the first one after an escape
passes.
-/

/-- The rest of a quoted string with its closing quote; `passes` tells whether the next line
break passes. -/
def cutQuoted (quote : Char) (passes : Bool) : List Char → Option Cut
  | [] => none
  | '\\' :: [] => none
  | '\\' :: c :: rest => (cutQuoted quote true rest).map (Cut.after ['\\', c])
  | c :: rest =>
      if c = quote then some ([c], rest)
      else if c = '\n' ∨ c = '\r' then
        if passes then (cutQuoted quote false rest).map (Cut.after [c]) else none
      else (cutQuoted quote passes rest).map (Cut.after [c])

def closingBracket (level : Nat) : List Char :=
  ']' :: List.replicate level '=' ++ [']']

def cutThrough (closing : List Char) : List Char → Option Cut
  | [] => if closing.isEmpty then some ([], []) else none
  | c :: rest =>
      if closing.isPrefixOf (c :: rest) then
        some (closing, (c :: rest).drop closing.length)
      else
        (cutThrough closing rest).map (Cut.after [c])

/-- What a text may be that starts with a bracket. -/
inductive LongBracket where
  /-- No second bracket follows the equals signs. -/
  | unopened (level : Nat) (rest : List Char)
  /-- A long bracket without its end. -/
  | unclosed
  | closed (cut : Cut)

/-- Reads a long bracket whose first bracket stands before the text; a cut holds that bracket
too. -/
def longBracket (text : List Char) : LongBracket :=
  let (signs, rest) := cutWhile (· == '=') text
  match rest with
  | '[' :: contents =>
      match cutThrough (closingBracket signs.length) contents with
      | some cut => .closed (cut.after ('[' :: signs ++ ['[']))
      | none => .unclosed
  | _ => .unopened signs.length rest

/-!
## Comments
-/

def cutComment (text : List Char) : Option (Lexeme.Kind × Cut) :=
  let line := some (.lineComment, (cutWhile (· != '\n') text).after ['-', '-'])
  match text with
  | '[' :: rest =>
      match longBracket rest with
      | .closed cut => some (.longComment, cut.after ['-', '-'])
      | .unclosed => none
      | .unopened _ [] => none
      | .unopened _ _ => line
  | _ => line

/-!
## Numbers

The longest text that has the shape of a number; whether it has a value is another matter.
-/

def isDigitPart (c : Char) : Bool :=
  c.isDigit || c == '_'

def isHexPart (c : Char) : Bool :=
  c.isDigit || ('a' ≤ c && c ≤ 'f') || ('A' ≤ c && c ≤ 'F') || c == '_'

def cutSuffix : List Char → Cut
  | 'L' :: 'L' :: rest => (['L', 'L'], rest)
  | 'U' :: 'L' :: 'L' :: rest => (['U', 'L', 'L'], rest)
  | 'i' :: rest => (['i'], rest)
  | text => ([], text)

def cutFraction (digit : Char → Bool) : List Char → Cut
  | '.' :: rest => (cutWhile digit rest).after ['.']
  | text => ([], text)

def cutSign : List Char → Cut
  | '+' :: rest => (['+'], rest)
  | '-' :: rest => (['-'], rest)
  | text => ([], text)

def cutExponent (mark digit : Char → Bool) : List Char → Cut
  | [] => ([], [])
  | c :: rest =>
      let (sign, afterSign) := cutSign rest
      let (digits, afterDigits) := cutWhile digit afterSign
      if mark c && !digits.isEmpty then (c :: sign ++ digits, afterDigits) else ([], c :: rest)

def cutNumberTail (mark digit : Char → Bool) (text : List Char) : Cut :=
  let (fraction, rest) := cutFraction digit text
  let (exponent, rest) := cutExponent mark digit rest
  let (suffix, rest) := cutSuffix rest
  (fraction ++ exponent ++ suffix, rest)

/-- A number in decimal digits, starting with a digit or a point before one. -/
def cutDecimal (text : List Char) : Cut :=
  let (whole, rest) := cutWhile isDigitPart text
  (cutNumberTail (fun c => c == 'e' || c == 'E') isDigitPart rest).after whole

def cutHexadecimal (x : Char) (text : List Char) : Option Cut :=
  let (whole, rest) := cutWhile isHexPart text
  if whole.isEmpty then none
  else some ((cutNumberTail (fun c => c == 'p' || c == 'P') isHexPart rest).after ('0' :: x :: whole))

def cutNumber : List Char → Option Cut
  | '0' :: x :: rest =>
      if x = 'x' ∨ x = 'X' then
        some ((cutHexadecimal x rest).getD (['0'], x :: rest))
      else some (cutDecimal ('0' :: x :: rest))
  | '.' :: c :: rest => if c.isDigit then some (cutDecimal ('.' :: c :: rest)) else none
  | c :: rest => if c.isDigit then some (cutDecimal (c :: rest)) else none
  | [] => none

/-!
## Signs
-/

def signs : List String :=
  ["...", "..", ".", "::", ":", "==", "=", ">=", ">", "<=", "<<", "<", "~=", "~", "//", "/",
    "&", "^", ",", "#", "[", "\x7b", "(", "-", "%", "|", "+", "\x7d", "]", ")", ";", "*"]

def cutReserved (text : List Char) : Option Cut :=
  (signs.find? fun sign => sign.toList.isPrefixOf text).map fun sign =>
    (sign.toList, text.drop sign.length)

/-!
## The first lexeme
-/

def cutLexeme (text : List Char) : Option (Lexeme.Kind × Cut) :=
  match cutBlank text with
  | (c :: blank, rest) => some (.blank, (c :: blank, rest))
  | ([], _) =>
      match text with
      | [] => none
      | '-' :: '-' :: rest => cutComment rest
      | '\'' :: rest => (cutQuoted '\'' false rest).map fun cut => (.string, cut.after ['\''])
      | '"' :: rest => (cutQuoted '"' false rest).map fun cut => (.string, cut.after ['"'])
      | '[' :: rest =>
          match longBracket rest with
          | .closed cut => some (.string, cut)
          | .unclosed => none
          | .unopened 0 _ => some (.reserved, (['['], rest))
          | .unopened _ _ => none
      | '#' :: '!' :: _ => none
      | c :: rest =>
          if isNameStart c then
            let (word, rest) := cutWhile isNamePart (c :: rest)
            let kind : Lexeme.Kind :=
              if String.ofList word ∈ keywords then .reserved else .name
            some (kind, (word, rest))
          else
            match cutNumber text with
            | some cut => some (.number, cut)
            | none => (cutReserved text).map fun cut => (.reserved, cut)

/-!
## The whole source

A byte order mark and an interpreter line are left out, and the lexemes of the rest are cut off
one by one.
-/

def lineFeeds (text : List Char) : Nat :=
  text.count '\n'

/-- The lexemes of a text that starts on a line, at most `fuel` of them, or the line of the
first place where none fits. -/
def lexFrom : Nat → Nat → List Char → Except Nat (List Lexeme)
  | _, line, [] => .ok [⟨.finish, "", line⟩]
  | 0, line, _ :: _ => .error line
  | fuel + 1, line, c :: rest =>
      match cutLexeme (c :: rest) with
      | none => .error line
      | some (kind, (text, rest)) => do
          let others ← lexFrom fuel (line + lineFeeds text) rest
          return ⟨kind, String.ofList text, line⟩ :: others

def dropByteOrderMark : List Char → List Char
  | '\uFEFF' :: rest => rest
  | text => text

/-- A text without the interpreter line it starts with, which a line feed ends, and the
line that the rest starts on. -/
def dropInterpreterLine (text : List Char) : Nat × List Char :=
  match text with
  | '#' :: '!' :: _ =>
      match text.dropWhile (· != '\n') with
      | '\n' :: rest => (2, rest)
      | _ => (1, text)
  | _ => (1, text)

/-- The lexemes of a source, or the line of the first place where none fits. -/
def lex (source : List Char) : Except Nat (List Lexeme) :=
  let (line, text) := dropInterpreterLine (dropByteOrderMark source)
  lexFrom text.length line text

end Lua
end LuaBundle
