import LuaBundle.Lua.Fault
import LuaBundle.Lua.Grammar
import LuaBundle.Lua.Scope

/-!
# Reading a chunk

A source is cut into lexemes, its tokens are parsed, the tree is searched for faults, and
its references are marked.  A syntax error anywhere is reported before any fault.
-/

namespace LuaBundle
namespace Lua

open Text

inductive ParseError where
  /-- The lexemes or the grammar refuse the source on a line. -/
  | malformed (line : Nat)
  | faulty (fault : Fault)
deriving DecidableEq, Repr

def ParseError.line : ParseError → Nat
  | .malformed line => line
  | .faulty fault => fault.line

def bodyOf (encoding : Encoding) (lexemes : List Lexeme) : Except ParseError (List Stat) :=
  match program (tokens lexemes) with
  | .error line => .error (.malformed line)
  | .ok body =>
      match blockFaults encoding true body with
      | fault :: _ => .error (.faulty fault)
      | [] => .ok (resolveBlock [] body).1

def parse (encoding : Encoding) (source : List Char) : Except ParseError Chunk :=
  match lex source with
  | .error line => .error (.malformed line)
  | .ok lexemes =>
      match bodyOf encoding lexemes with
      | .error e => .error e
      | .ok body => .ok ⟨body, comments lexemes, freeNames body⟩

def parseBytes (bytes : Bytes) : Except ParseError Chunk :=
  parse .bytes (ofBytes bytes)

/-- The text that a string literal denotes, with replacement characters where its bytes are
not UTF-8. -/
def StringLit.value (encoding : Encoding) (literal : StringLit) : String :=
  match literal.bytes encoding with
  | .ok bytes => String.ofList (ofUtf8Lossy bytes)
  | .error _ => ""

end Lua
end LuaBundle
