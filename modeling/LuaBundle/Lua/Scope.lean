import LuaBundle.Lua.Tree
import LuaBundle.Merge

/-!
# Scope

Every reference to a name is marked as local when a declaration of the name is in scope.
The names in scope are passed along with the statements of a block: a statement sees what
the statements before it declare, and a block ends the scope of what it declares.

* The variables of a local statement are in scope after it, not in its values.
* A local function is in scope in its own body.
* Parameters are in scope in the body, and so is `self` in a method.
* The variables of a loop are in scope in its body only.
* What the body of a `repeat` declares is in scope in its condition too.

Labels, members and the names of fields are no references.
-/

namespace LuaBundle
namespace Lua

/-!
## Declared names
-/

def Name.declared (n : Name) : Name :=
  { n with isLocal := true }

def Name.resolve (scope : List String) (n : Name) : Name :=
  { n with isLocal := scope.contains n.text }

def Expr.declared : Expr → Expr
  | .name n => .name n.declared
  | e => e

def parameterNames (parameters : List Expr) : List String :=
  parameters.filterMap fun
    | .name n => some n.text
    | _ => none

def receiver : Option Expr → List String
  | some (.member _ .colon _) => ["self"]
  | _ => []

def functionScope (scope : List String) (name : Option Expr) (parameters : List Expr) :
    List String :=
  parameterNames parameters ++ receiver name ++ scope

def localFunctionNames : Option Expr → List String
  | some (.name n) => [n.text]
  | _ => []

/-!
## Marking a tree

A scope is handed from statement to statement of a block.  The condition of a `repeat` loop
sees the names of its body.
-/

mutual

def Expr.resolve (scope : List String) : Expr → Expr
  | .name n => .name (n.resolve scope)
  | .function parameters body =>
      .function (parameters.map Expr.declared)
        (resolveBlock (functionScope scope none parameters) body).1
  | .table fields => .table (resolveFields scope fields)
  | .binary op left right => .binary op (left.resolve scope) (right.resolve scope)
  | .unary op operand => .unary op (operand.resolve scope)
  | .member base indexer n => .member (base.resolve scope) indexer n
  | .index base key => .index (base.resolve scope) (key.resolve scope)
  | .call base arguments inParens line =>
      .call (base.resolve scope) (arguments.resolve scope) inParens line
  | .string literal => .string literal
  | .number numeral line => .number numeral line
  | .boolean value => .boolean value
  | .nil => .nil
  | .vararg inParens line => .vararg inParens line

def Args.resolve (scope : List String) : Args → Args
  | .list arguments => .list (resolveExprs scope arguments)
  | .table fields => .table (resolveFields scope fields)
  | .string literal => .string literal

def Field.resolve (scope : List String) : Field → Field
  | .keyed key value => .keyed (key.resolve scope) (value.resolve scope)
  | .named n value => .named n (value.resolve scope)
  | .positional value => .positional (value.resolve scope)

def Stat.resolve (scope : List String) : Stat → Stat × List String
  | .label n => (.label n, scope)
  | .goto n => (.goto n, scope)
  | .leave => (.leave, scope)
  | .ret values => (.ret (resolveExprs scope values), scope)
  | .choice clauses => (.choice (resolveClauses scope clauses), scope)
  | .whileLoop condition body =>
      (.whileLoop (condition.resolve scope) (resolveBlock scope body).1, scope)
  | .block body => (.block (resolveBlock scope body).1, scope)
  | .repeatLoop body condition =>
      let (body, inner) := resolveBlock scope body
      (.repeatLoop body (condition.resolve inner), scope)
  | .locals vars values =>
      (.locals (vars.map fun v => { v with name := v.name.declared })
          (resolveExprs scope values),
        vars.map (·.name.text) ++ scope)
  | .assign targets values =>
      (.assign (resolveExprs scope targets) (resolveExprs scope values), scope)
  | .call expression => (.call (expression.resolve scope), scope)
  | .function isLocal name parameters body =>
      let outer := if isLocal then localFunctionNames name ++ scope else scope
      (.function isLocal (resolveOption outer name) (parameters.map Expr.declared)
          (resolveBlock (functionScope outer name parameters) body).1,
        outer)
  | .forRange counter first last step body =>
      (.forRange counter.declared (first.resolve scope) (last.resolve scope)
          (resolveOption scope step) (resolveBlock (counter.text :: scope) body).1,
        scope)
  | .forEach vars iterators body =>
      (.forEach (vars.map Name.declared) (resolveExprs scope iterators)
          (resolveBlock (vars.map Name.text ++ scope) body).1,
        scope)

def Clause.resolve (scope : List String) : Clause → Clause
  | .first condition body => .first (condition.resolve scope) (resolveBlock scope body).1
  | .next condition body => .next (condition.resolve scope) (resolveBlock scope body).1
  | .otherwise body => .otherwise (resolveBlock scope body).1

def resolveOption (scope : List String) : Option Expr → Option Expr
  | none => none
  | some e => some (e.resolve scope)

def resolveExprs (scope : List String) : List Expr → List Expr
  | [] => []
  | e :: rest => e.resolve scope :: resolveExprs scope rest

def resolveFields (scope : List String) : List Field → List Field
  | [] => []
  | f :: rest => f.resolve scope :: resolveFields scope rest

/-- The statements of a block with their references marked, and the scope at its end. -/
def resolveBlock (scope : List String) : List Stat → List Stat × List String
  | [] => ([], scope)
  | s :: rest =>
      let (s, scope) := s.resolve scope
      let (rest, scope) := resolveBlock scope rest
      (s :: rest, scope)

def resolveClauses (scope : List String) : List Clause → List Clause
  | [] => []
  | c :: rest => c.resolve scope :: resolveClauses scope rest

end

/-!
## References

The names that stand as expressions, in reading order.
-/

mutual

def Expr.references : Expr → List Name
  | .name n => [n]
  | .function parameters body => exprReferences parameters ++ blockReferences body
  | .table fields => fieldReferences fields
  | .binary _ left right => left.references ++ right.references
  | .unary _ operand => operand.references
  | .member base _ _ => base.references
  | .index base key => base.references ++ key.references
  | .call base arguments _ _ => base.references ++ arguments.references
  | .string _ | .number .. | .boolean _ | .nil | .vararg .. => []

def Args.references : Args → List Name
  | .list arguments => exprReferences arguments
  | .table fields => fieldReferences fields
  | .string _ => []

def Field.references : Field → List Name
  | .keyed key value => key.references ++ value.references
  | .named _ value => value.references
  | .positional value => value.references

def Stat.references : Stat → List Name
  | .label _ | .goto _ | .leave => []
  | .ret values => exprReferences values
  | .choice clauses => clauseReferences clauses
  | .whileLoop condition body => condition.references ++ blockReferences body
  | .block body => blockReferences body
  | .repeatLoop body condition => blockReferences body ++ condition.references
  | .locals _ values => exprReferences values
  | .assign targets values => exprReferences targets ++ exprReferences values
  | .call expression => expression.references
  | .function _ name parameters body =>
      optionReferences name ++ exprReferences parameters ++ blockReferences body
  | .forRange _ first last step body =>
      first.references ++ last.references ++ optionReferences step ++ blockReferences body
  | .forEach _ iterators body => exprReferences iterators ++ blockReferences body

def Clause.references : Clause → List Name
  | .first condition body => condition.references ++ blockReferences body
  | .next condition body => condition.references ++ blockReferences body
  | .otherwise body => blockReferences body

def optionReferences : Option Expr → List Name
  | none => []
  | some e => e.references

def exprReferences : List Expr → List Name
  | [] => []
  | e :: rest => e.references ++ exprReferences rest

def fieldReferences : List Field → List Name
  | [] => []
  | f :: rest => f.references ++ fieldReferences rest

def blockReferences : List Stat → List Name
  | [] => []
  | s :: rest => s.references ++ blockReferences rest

def clauseReferences : List Clause → List Name
  | [] => []
  | c :: rest => c.references ++ clauseReferences rest

end

/-!
## Free names
-/

def freeNames (body : List Stat) : List String :=
  addNew [] (((blockReferences body).filter fun n => !n.isLocal).map Name.text)

end Lua
end LuaBundle
