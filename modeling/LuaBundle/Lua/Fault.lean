import LuaBundle.Lua.Numeral
import LuaBundle.Lua.Tree

/-!
# Faults

What the grammar accepts may still be wrong: an escape without meaning, a number without a
value, an unknown attribute, or `...` in a function that does not take further arguments.
The faults of a tree are listed in the order in which they stand in its source.
-/

namespace LuaBundle
namespace Lua

open Text

inductive Fault.Cause where
  | badEscape (escape : BadEscape)
  | malformedNumber (raw : String)
  | unknownAttribute (name : String)
  | varargOutside
deriving DecidableEq, Repr

structure Fault where
  cause : Fault.Cause
  line : Nat
deriving DecidableEq, Repr

def Fault.Cause.message : Fault.Cause → String
  | .badEscape escape => "invalid escape sequence '" ++ escape.sequence ++ "'"
  | .malformedNumber raw => "malformed number near '" ++ raw ++ "'"
  | .unknownAttribute name => "unknown attribute '" ++ name ++ "'"
  | .varargOutside => "cannot use '...' outside a vararg function"

def Fault.message (fault : Fault) : String :=
  "[" ++ toString fault.line ++ "] " ++ fault.cause.message

/-!
## Faults of leaves

A leaf has at most one fault, on its own line.
-/

def StringLit.bytes (encoding : Encoding) (literal : StringLit) : Except BadEscape Bytes :=
  literalBytes encoding literal.raw.toList

def StringLit.faults (encoding : Encoding) (literal : StringLit) : List Fault :=
  match literal.bytes encoding with
  | .ok _ => []
  | .error escape => [⟨.badEscape escape, literal.line⟩]

def Numeral.toFloat? : Numeral → Option Float
  | .written raw => numeralValue? raw.toList
  | .value x => some x

def Numeral.faults (line : Nat) : Numeral → List Fault
  | .written raw =>
      match numeralValue? raw.toList with
      | some _ => []
      | none => [⟨.malformedNumber raw, line⟩]
  | .value _ => []

def knownAttributes : List String :=
  ["const", "close"]

def LocalVar.faults (v : LocalVar) : List Fault :=
  match v.attrib with
  | none => []
  | some a => if a.name ∈ knownAttributes then [] else [⟨.unknownAttribute a.name, a.line⟩]

/-- Whether a list of parameters takes further arguments. -/
def takesRest (parameters : List Expr) : Bool :=
  parameters.any fun
    | .vararg .. => true
    | _ => false

/-!
## Faults of trees

The flag `rest` tells whether the innermost function takes further arguments.  Parameters
are declarations and have no faults.
-/

mutual

def Expr.faults (encoding : Encoding) (rest : Bool) : Expr → List Fault
  | .name _ | .boolean _ | .nil => []
  | .string literal => literal.faults encoding
  | .number numeral line => numeral.faults line
  | .vararg _ line => if rest then [] else [⟨.varargOutside, line⟩]
  | .function parameters body => blockFaults encoding (takesRest parameters) body
  | .table fields => fieldFaults encoding rest fields
  | .binary _ left right => left.faults encoding rest ++ right.faults encoding rest
  | .unary _ operand => operand.faults encoding rest
  | .member base _ _ => base.faults encoding rest
  | .index base key => base.faults encoding rest ++ key.faults encoding rest
  | .call base arguments _ _ => base.faults encoding rest ++ arguments.faults encoding rest

def Args.faults (encoding : Encoding) (rest : Bool) : Args → List Fault
  | .list arguments => exprFaults encoding rest arguments
  | .table fields => fieldFaults encoding rest fields
  | .string literal => literal.faults encoding

def Field.faults (encoding : Encoding) (rest : Bool) : Field → List Fault
  | .keyed key value => key.faults encoding rest ++ value.faults encoding rest
  | .named _ value => value.faults encoding rest
  | .positional value => value.faults encoding rest

def Stat.faults (encoding : Encoding) (rest : Bool) : Stat → List Fault
  | .label _ | .goto _ | .leave => []
  | .ret values => exprFaults encoding rest values
  | .choice clauses => clauseFaults encoding rest clauses
  | .whileLoop condition body =>
      condition.faults encoding rest ++ blockFaults encoding rest body
  | .block body => blockFaults encoding rest body
  | .repeatLoop body condition =>
      blockFaults encoding rest body ++ condition.faults encoding rest
  | .locals vars values =>
      vars.flatMap LocalVar.faults ++ exprFaults encoding rest values
  | .assign targets values =>
      exprFaults encoding rest targets ++ exprFaults encoding rest values
  | .call expression => expression.faults encoding rest
  | .function _ name parameters body =>
      optionFaults encoding rest name ++ blockFaults encoding (takesRest parameters) body
  | .forRange _ first last step body =>
      first.faults encoding rest ++ last.faults encoding rest
        ++ optionFaults encoding rest step ++ blockFaults encoding rest body
  | .forEach _ iterators body =>
      exprFaults encoding rest iterators ++ blockFaults encoding rest body

def Clause.faults (encoding : Encoding) (rest : Bool) : Clause → List Fault
  | .first condition body => condition.faults encoding rest ++ blockFaults encoding rest body
  | .next condition body => condition.faults encoding rest ++ blockFaults encoding rest body
  | .otherwise body => blockFaults encoding rest body

def optionFaults (encoding : Encoding) (rest : Bool) : Option Expr → List Fault
  | none => []
  | some e => e.faults encoding rest

def exprFaults (encoding : Encoding) (rest : Bool) : List Expr → List Fault
  | [] => []
  | e :: more => e.faults encoding rest ++ exprFaults encoding rest more

def fieldFaults (encoding : Encoding) (rest : Bool) : List Field → List Fault
  | [] => []
  | f :: more => f.faults encoding rest ++ fieldFaults encoding rest more

def blockFaults (encoding : Encoding) (rest : Bool) : List Stat → List Fault
  | [] => []
  | s :: more => s.faults encoding rest ++ blockFaults encoding rest more

def clauseFaults (encoding : Encoding) (rest : Bool) : List Clause → List Fault
  | [] => []
  | c :: more => c.faults encoding rest ++ clauseFaults encoding rest more

end

end Lua
end LuaBundle
