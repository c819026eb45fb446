import LuaBundle.Lua.Lexeme
import LuaBundle.Lua.Literal
import LuaBundle.Lua.Tree

/-!
# Tokens and comments

The grammar sees the tokens of a source, that is its lexemes without blanks and comments.
The comments are kept beside them.  Every comment belongs to a token: to the one before it
while the line of that token has not ended in a blank, and otherwise to the one after it.
The comments of a comma that separates declared names are not kept.
-/

namespace LuaBundle
namespace Lua

/-- A token, the line it starts on, and whether it directly follows the token before it. -/
structure Token where
  kind : Lexeme.Kind
  text : String
  line : Nat
  adjoins : Bool
deriving DecidableEq, Repr

def Lexeme.Kind.isTrivia : Lexeme.Kind → Bool
  | .blank | .lineComment | .longComment => true
  | _ => false

/-- The tokens among lexemes; `adjoins` tells whether a token stands directly before. -/
def tokensFrom (adjoins : Bool) : List Lexeme → List Token
  | [] => []
  | l :: rest =>
      if l.kind.isTrivia then tokensFrom false rest
      else ⟨l.kind, l.text, l.line, adjoins⟩ :: tokensFrom true rest

def tokens (lexemes : List Lexeme) : List Token :=
  tokensFrom false lexemes

def Token.is (t : Token) (text : String) : Bool :=
  t.kind == .reserved && t.text == text

/-!
## Commas between declared names

One look at the tokens in order finds the commas that separate the names of a local
statement, the names of a loop over iterators, and the parameters of a function.
-/

/-- Where a token stands with regard to declared names. -/
inductive Declaring where
  | no
  /-- Directly after `local`. -/
  | afterLocal
  /-- Where the next declared name stands. -/
  | name
  | afterName
  | attrib
  /-- Between `function` and its parameters. -/
  | header
  | parameters
deriving DecidableEq, Repr

def Declaring.start (t : Token) : Declaring :=
  if t.is "local" then .afterLocal
  else if t.is "for" then .name
  else if t.is "function" then .header
  else .no

def Declaring.step (state : Declaring) (t : Token) : Declaring :=
  match state with
  | .no => .start t
  | .afterLocal => if t.kind = .name then .afterName else .start t
  | .name => if t.kind = .name then .afterName else .start t
  | .afterName =>
      if t.is "," then .name
      else if t.is "<" then .attrib
      else .start t
  | .attrib => if t.is ">" then .afterName else .attrib
  | .header => if t.is "(" then .parameters else .header
  | .parameters => if t.is ")" then .no else .parameters

def declaredCommas (state : Declaring) : List Token → List Bool
  | [] => []
  | t :: rest =>
      (t.is "," && (state == .afterName || state == .parameters))
        :: declaredCommas (state.step t) rest

/-!
## Comments

A comment belongs to the token before it if the line of that still runs, or else to the next
one.  The comments of commas between declared names are left out.
-/

def Lexeme.endsLine (l : Lexeme) : Bool :=
  l.kind == .blank && l.text.toList.getLast? == some '\n'

def Lexeme.comment? (l : Lexeme) : Option Comment :=
  match l.kind with
  | .lineComment => some ⟨l.text, String.ofList (l.text.toList.drop 2), l.line⟩
  | .longComment =>
      some ⟨l.text, String.ofList (longBracketContents (l.text.toList.drop 2)), l.line⟩
  | _ => none

/-- The comments among lexemes, each with the number of the token it belongs to.  `count`
tokens stand before, and `attached` tells whether the line of the last one still runs. -/
def ownedComments (count : Nat) (attached : Bool) : List Lexeme → List (Nat × Comment)
  | [] => []
  | l :: rest =>
      match l.comment? with
      | some comment =>
          (if attached then count - 1 else count, comment) :: ownedComments count attached rest
      | none =>
          if l.kind.isTrivia then ownedComments count (attached && !l.endsLine) rest
          else ownedComments (count + 1) true rest

def comments (lexemes : List Lexeme) : List Comment :=
  let dropped := (declaredCommas .no (tokens lexemes)).toArray
  ((ownedComments 0 false lexemes).filter fun (owner, _) => !dropped.getD owner false).map (·.2)

end Lua
end LuaBundle
