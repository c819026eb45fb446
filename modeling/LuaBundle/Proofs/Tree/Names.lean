import LuaBundle.Lua.Tree

/-!
# The names of a tree

All names that a tree is printed with, in reading order: uses and declarations, members and
fields, labels and attributes.
-/

namespace LuaBundle
namespace Lua

def LocalVar.names (v : LocalVar) : List String :=
  v.name.text :: (v.attrib.map Attribute.name).toList

mutual

def Expr.names : Expr → List String
  | .name n => [n.text]
  | .string _ | .number .. | .boolean _ | .nil | .vararg .. => []
  | .function parameters body => exprNames parameters ++ blockNames body
  | .table fields => fieldNames fields
  | .binary _ left right => left.names ++ right.names
  | .unary _ operand => operand.names
  | .member base _ n => base.names ++ [n.text]
  | .index base key => base.names ++ key.names
  | .call base arguments _ _ => base.names ++ arguments.names

def Args.names : Args → List String
  | .list arguments => exprNames arguments
  | .table fields => fieldNames fields
  | .string _ => []

def Field.names : Field → List String
  | .keyed key value => key.names ++ value.names
  | .named n value => n.text :: value.names
  | .positional value => value.names

def Stat.names : Stat → List String
  | .label n => [n.text]
  | .goto n => [n.text]
  | .leave => []
  | .ret values => exprNames values
  | .choice clauses => clauseNames clauses
  | .whileLoop condition body => condition.names ++ blockNames body
  | .block body => blockNames body
  | .repeatLoop body condition => blockNames body ++ condition.names
  | .locals vars values => vars.flatMap LocalVar.names ++ exprNames values
  | .assign targets values => exprNames targets ++ exprNames values
  | .call e => e.names
  | .function _ name parameters body =>
      optionNames name ++ exprNames parameters ++ blockNames body
  | .forRange counter first last step body =>
      counter.text :: first.names ++ last.names ++ optionNames step ++ blockNames body
  | .forEach vars iterators body =>
      vars.map Name.text ++ exprNames iterators ++ blockNames body

def Clause.names : Clause → List String
  | .first condition body => condition.names ++ blockNames body
  | .next condition body => condition.names ++ blockNames body
  | .otherwise body => blockNames body

def optionNames : Option Expr → List String
  | none => []
  | some e => e.names

def exprNames : List Expr → List String
  | [] => []
  | e :: rest => e.names ++ exprNames rest

def fieldNames : List Field → List String
  | [] => []
  | f :: rest => f.names ++ fieldNames rest

def blockNames : List Stat → List String
  | [] => []
  | s :: rest => s.names ++ blockNames rest

def clauseNames : List Clause → List String
  | [] => []
  | c :: rest => c.names ++ clauseNames rest

end

end Lua
end LuaBundle
