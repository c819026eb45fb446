import LuaBundle.Lua.Tree

/-!
# Trees without lines

The lines in a tree say where its source was written.  Two trees say the same when they are
equal once all lines are taken out.
-/

namespace LuaBundle
namespace Lua

def StringLit.unlined (literal : StringLit) : StringLit :=
  { literal with line := 0 }

def Attribute.unlined (a : Attribute) : Attribute :=
  { a with line := 0 }

def LocalVar.unlined (v : LocalVar) : LocalVar :=
  { v with attrib := v.attrib.map Attribute.unlined }

mutual

def Expr.unlined : Expr → Expr
  | .name n => .name n
  | .string literal => .string literal.unlined
  | .number numeral _ => .number numeral 0
  | .boolean value => .boolean value
  | .nil => .nil
  | .vararg inParens _ => .vararg inParens 0
  | .function parameters body => .function (unlinedExprs parameters) (unlinedBlock body)
  | .table fields => .table (unlinedFields fields)
  | .binary op left right => .binary op left.unlined right.unlined
  | .unary op operand => .unary op operand.unlined
  | .member base indexer n => .member base.unlined indexer n
  | .index base key => .index base.unlined key.unlined
  | .call base arguments inParens _ => .call base.unlined arguments.unlined inParens 0

def Args.unlined : Args → Args
  | .list arguments => .list (unlinedExprs arguments)
  | .table fields => .table (unlinedFields fields)
  | .string literal => .string literal.unlined

def Field.unlined : Field → Field
  | .keyed key value => .keyed key.unlined value.unlined
  | .named n value => .named n value.unlined
  | .positional value => .positional value.unlined

def Stat.unlined : Stat → Stat
  | .label n => .label n
  | .goto n => .goto n
  | .leave => .leave
  | .ret values => .ret (unlinedExprs values)
  | .choice clauses => .choice (unlinedClauses clauses)
  | .whileLoop condition body => .whileLoop condition.unlined (unlinedBlock body)
  | .block body => .block (unlinedBlock body)
  | .repeatLoop body condition => .repeatLoop (unlinedBlock body) condition.unlined
  | .locals vars values => .locals (vars.map LocalVar.unlined) (unlinedExprs values)
  | .assign targets values => .assign (unlinedExprs targets) (unlinedExprs values)
  | .call e => .call e.unlined
  | .function isLocal name parameters body =>
      .function isLocal (unlinedOption name) (unlinedExprs parameters) (unlinedBlock body)
  | .forRange counter first last step body =>
      .forRange counter first.unlined last.unlined (unlinedOption step) (unlinedBlock body)
  | .forEach vars iterators body =>
      .forEach vars (unlinedExprs iterators) (unlinedBlock body)

def Clause.unlined : Clause → Clause
  | .first condition body => .first condition.unlined (unlinedBlock body)
  | .next condition body => .next condition.unlined (unlinedBlock body)
  | .otherwise body => .otherwise (unlinedBlock body)

def unlinedOption : Option Expr → Option Expr
  | none => none
  | some e => some e.unlined

def unlinedExprs : List Expr → List Expr
  | [] => []
  | e :: rest => e.unlined :: unlinedExprs rest

def unlinedFields : List Field → List Field
  | [] => []
  | f :: rest => f.unlined :: unlinedFields rest

def unlinedBlock : List Stat → List Stat
  | [] => []
  | s :: rest => s.unlined :: unlinedBlock rest

def unlinedClauses : List Clause → List Clause
  | [] => []
  | c :: rest => c.unlined :: unlinedClauses rest

end

end Lua
end LuaBundle
