import LuaBundle.Lua.Tree

/-!
# Walking a tree

A walk goes over a tree in reading order, parents before children, and rebuilds it.  A
visitor is told of every block, statement and expression when the walk arrives there, and
of every name, declared names, labels and the names of members and fields included.  It may
put another expression in the place of one, which is then not entered, and another name in
the place of a name.
-/

namespace LuaBundle
namespace Lua

structure Visitor (m : Type → Type) where
  block : List Stat → m Unit
  statement : Stat → m Unit
  /-- An expression to stand in place of this one, or nothing to walk into this one. -/
  expression : Expr → m (Option Expr)
  name : Name → m Name

variable {m : Type → Type} [Monad m]

mutual

def Expr.walk (v : Visitor m) (e : Expr) : m Expr := do
  match ← v.expression e with
  | some replacement => return replacement
  | none =>
      match e with
      | .name n => return .name (← v.name n)
      | .string literal => return .string literal
      | .number numeral line => return .number numeral line
      | .boolean value => return .boolean value
      | .nil => return .nil
      | .vararg inParens line => return .vararg inParens line
      | .function parameters body => do
          let parameters ← walkExprs v parameters
          v.block body
          return .function parameters (← walkBlock v body)
      | .table fields => return .table (← walkFields v fields)
      | .binary op left right => do
          let left ← left.walk v
          return .binary op left (← right.walk v)
      | .unary op operand => return .unary op (← operand.walk v)
      | .member base indexer n => do
          let base ← base.walk v
          return .member base indexer (← v.name n)
      | .index base key => do
          let base ← base.walk v
          return .index base (← key.walk v)
      | .call base arguments inParens line => do
          let base ← base.walk v
          return .call base (← arguments.walk v) inParens line

def Args.walk (v : Visitor m) : Args → m Args
  | .list arguments => return .list (← walkExprs v arguments)
  | .table fields => return .table (← walkFields v fields)
  | .string literal => return .string literal

def Field.walk (v : Visitor m) : Field → m Field
  | .keyed key value => do
      let key ← key.walk v
      return .keyed key (← value.walk v)
  | .named n value => do
      let n ← v.name n
      return .named n (← value.walk v)
  | .positional value => return .positional (← value.walk v)

def Stat.walk (v : Visitor m) (s : Stat) : m Stat := do
  v.statement s
  match s with
  | .label n => return .label (← v.name n)
  | .goto n => return .goto (← v.name n)
  | .leave => return .leave
  | .ret values => return .ret (← walkExprs v values)
  | .choice clauses => return .choice (← walkClauses v clauses)
  | .whileLoop condition body => do
      let condition ← condition.walk v
      v.block body
      return .whileLoop condition (← walkBlock v body)
  | .block body => do
      v.block body
      return .block (← walkBlock v body)
  | .repeatLoop body condition => do
      v.block body
      let body ← walkBlock v body
      return .repeatLoop body (← condition.walk v)
  | .locals vars values => do
      let vars ← vars.mapM fun x => return { x with name := ← v.name x.name }
      return .locals vars (← walkExprs v values)
  | .assign targets values => do
      let targets ← walkExprs v targets
      return .assign targets (← walkExprs v values)
  | .call e => return .call (← e.walk v)
  | .function isLocal name parameters body => do
      let name ← walkOption v name
      let parameters ← walkExprs v parameters
      v.block body
      return .function isLocal name parameters (← walkBlock v body)
  | .forRange counter first last step body => do
      let counter ← v.name counter
      let first ← first.walk v
      let last ← last.walk v
      let step ← walkOption v step
      v.block body
      return .forRange counter first last step (← walkBlock v body)
  | .forEach vars iterators body => do
      let vars ← vars.mapM v.name
      let iterators ← walkExprs v iterators
      v.block body
      return .forEach vars iterators (← walkBlock v body)

def Clause.walk (v : Visitor m) : Clause → m Clause
  | .first condition body => do
      let condition ← condition.walk v
      v.block body
      return .first condition (← walkBlock v body)
  | .next condition body => do
      let condition ← condition.walk v
      v.block body
      return .next condition (← walkBlock v body)
  | .otherwise body => do
      v.block body
      return .otherwise (← walkBlock v body)

def walkOption (v : Visitor m) : Option Expr → m (Option Expr)
  | none => return none
  | some e => return some (← e.walk v)

def walkExprs (v : Visitor m) : List Expr → m (List Expr)
  | [] => return []
  | e :: rest => do
      let e ← e.walk v
      return e :: (← walkExprs v rest)

def walkFields (v : Visitor m) : List Field → m (List Field)
  | [] => return []
  | f :: rest => do
      let f ← f.walk v
      return f :: (← walkFields v rest)

def walkBlock (v : Visitor m) : List Stat → m (List Stat)
  | [] => return []
  | s :: rest => do
      let s ← s.walk v
      return s :: (← walkBlock v rest)

def walkClauses (v : Visitor m) : List Clause → m (List Clause)
  | [] => return []
  | c :: rest => do
      let c ← c.walk v
      return c :: (← walkClauses v rest)

end

end Lua
end LuaBundle
