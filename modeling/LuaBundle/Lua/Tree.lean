/-!
# Syntax trees

Statements and expressions of Lua 5.4.  Names carry whether they are local.  Calls and the
leaves that a check may object to carry the line they stand on.
-/

namespace LuaBundle
namespace Lua

/-!
## Leaves
-/

/-- A name, and whether a declaration of it is in scope. -/
structure Name where
  text : String
  isLocal : Bool := false
deriving DecidableEq, Repr, Inhabited

/-- A string literal as it is written, with its delimiters. -/
structure StringLit where
  raw : String
  line : Nat := 0
deriving DecidableEq, Repr, Inhabited

inductive Numeral where
  | written (raw : String)
  | value (x : Float)
deriving DecidableEq, Repr, Inhabited

structure Attribute where
  name : String
  line : Nat := 0
deriving DecidableEq, Repr, Inhabited

structure LocalVar where
  name : Name
  attrib : Option Attribute := none
deriving DecidableEq, Repr, Inhabited

/-!
## Operators

Signs and operators correspond, so an operator is printed as it was read.
-/

inductive BinaryOp where
  | or | and
  | lt | gt | le | ge | ne | eq
  | bitOr | bitXor | bitAnd | shiftLeft | shiftRight
  | concat
  | add | sub | mul | div | floorDiv | mod
  | pow
deriving DecidableEq, Repr, Inhabited

def BinaryOp.sign : BinaryOp → String
  | .or => "or" | .and => "and"
  | .lt => "<" | .gt => ">" | .le => "<=" | .ge => ">=" | .ne => "~=" | .eq => "=="
  | .bitOr => "|" | .bitXor => "~" | .bitAnd => "&"
  | .shiftLeft => "<<" | .shiftRight => ">>"
  | .concat => ".."
  | .add => "+" | .sub => "-" | .mul => "*" | .div => "/" | .floorDiv => "//" | .mod => "%"
  | .pow => "^"

def BinaryOp.all : List BinaryOp :=
  [.or, .and, .lt, .gt, .le, .ge, .ne, .eq, .bitOr, .bitXor, .bitAnd, .shiftLeft,
    .shiftRight, .concat, .add, .sub, .mul, .div, .floorDiv, .mod, .pow]

def BinaryOp.ofSign? (sign : String) : Option BinaryOp :=
  BinaryOp.all.find? (·.sign == sign)

def BinaryOp.isLogical : BinaryOp → Bool
  | .or | .and => true
  | _ => false

def BinaryOp.isRightAssociative : BinaryOp → Bool
  | .concat | .pow => true
  | _ => false

inductive UnaryOp where
  | not | minus | length | bitNot
deriving DecidableEq, Repr, Inhabited

def UnaryOp.sign : UnaryOp → String
  | .not => "not" | .minus => "-" | .length => "#" | .bitNot => "~"

def UnaryOp.all : List UnaryOp :=
  [.not, .minus, .length, .bitNot]

def UnaryOp.ofSign? (sign : String) : Option UnaryOp :=
  UnaryOp.all.find? (·.sign == sign)

/-- How a member is selected: a colon selects a method. -/
inductive Indexer where
  | dot | colon
deriving DecidableEq, Repr, Inhabited

def Indexer.sign : Indexer → String
  | .dot => "."
  | .colon => ":"

/-!
## Expressions and statements

The parameters of a function are expressions: names, and at most one `...` at the end when
they come from a source.
-/

mutual

inductive Expr where
  | name (name : Name)
  | string (literal : StringLit)
  | number (numeral : Numeral) (line : Nat)
  | boolean (value : Bool)
  | nil
  | vararg (inParens : Bool) (line : Nat)
  | function (parameters : List Expr) (body : List Stat)
  | table (fields : List Field)
  | binary (op : BinaryOp) (left right : Expr)
  | unary (op : UnaryOp) (operand : Expr)
  | member (base : Expr) (indexer : Indexer) (name : Name)
  | index (base key : Expr)
  | call (base : Expr) (arguments : Args) (inParens : Bool) (line : Nat)

/-- The arguments of a call: a list in parentheses, a table or a string. -/
inductive Args where
  | list (arguments : List Expr)
  | table (fields : List Field)
  | string (literal : StringLit)

inductive Field where
  | keyed (key value : Expr)
  | named (name : Name) (value : Expr)
  | positional (value : Expr)

inductive Stat where
  | label (name : Name)
  | goto (label : Name)
  | leave
  | ret (values : List Expr)
  | choice (clauses : List Clause)
  | whileLoop (condition : Expr) (body : List Stat)
  | block (body : List Stat)
  | repeatLoop (body : List Stat) (condition : Expr)
  | locals (vars : List LocalVar) (values : List Expr)
  | assign (targets values : List Expr)
  | call (expression : Expr)
  | function (isLocal : Bool) (name : Option Expr) (parameters : List Expr) (body : List Stat)
  | forRange (counter : Name) (first last : Expr) (step : Option Expr) (body : List Stat)
  | forEach (vars : List Name) (iterators : List Expr) (body : List Stat)

inductive Clause where
  | first (condition : Expr) (body : List Stat)
  | next (condition : Expr) (body : List Stat)
  | otherwise (body : List Stat)

end

instance : Inhabited Expr := ⟨.nil⟩
instance : Inhabited Stat := ⟨.leave⟩

def Clause.body : Clause → List Stat
  | .first _ body => body
  | .next _ body => body
  | .otherwise body => body

/-!
## Shape of an expression
-/

/-- Whether the expression may stand before a call, an index or a member without
parentheses. -/
def Expr.isPrefixed : Expr → Bool
  | .name _ | .member .. | .index .. | .call .. => true
  | _ => false

def Expr.isCall : Expr → Bool
  | .call .. => true
  | _ => false

/-- Whether the source wrote the expression in parentheses.  This is kept where it matters:
for the expressions that may have several values. -/
def Expr.inParens : Expr → Bool
  | .call _ _ inParens _ => inParens
  | .vararg inParens _ => inParens
  | _ => false

def Expr.parenthesized : Expr → Expr
  | .call base arguments _ line => .call base arguments true line
  | .vararg _ line => .vararg true line
  | e => e

/-!
## Chunks
-/

/-- A comment as it is written, without its delimiters, and the line it starts on. -/
structure Comment where
  raw : String
  value : String
  line : Nat
deriving DecidableEq, Repr, Inhabited

/-- A whole script: its statements, its comments, and the names it uses without declaring
them, in the order of their first use. -/
structure Chunk where
  body : List Stat := []
  comments : List Comment := []
  globals : List String := []
deriving Inhabited

end Lua
end LuaBundle
