import LuaBundle.Decimal.Positional
import LuaBundle.Lua.Grammar
import LuaBundle.Lua.Page

/-!
# The layout of a tree

The pieces that a tree is printed as.  Parentheses stand where the source had them and they
matter, around the base of a suffix that needs them, and around an operand that the grammar
would otherwise give to another operator.  Sums in a sum, and products and quotients in a
product, go without.
-/

namespace LuaBundle
namespace Lua

/-!
## Parentheses
-/

/-- Where an expression stands with regard to the operator around it. -/
inductive Position where
  | free
  | left (op : BinaryOp)
  | right (op : BinaryOp)
  | operand
deriving DecidableEq, Repr

/-- Whether an operand on the side that the grammar does not group needs no parentheses all
the same: any operand as tight as a sum in a sum, and a product or quotient in a product. -/
def regroups (parent child : BinaryOp) : Bool :=
  match parent, child with
  | .add, _ => true
  | .mul, .mul => true
  | .mul, .div => true
  | _, _ => false

def BinaryOp.needsParens (op : BinaryOp) : Position → Bool
  | .free => false
  | .operand => op.precedence < UnaryOp.precedence
  | .left parent =>
      if op.precedence = parent.precedence then
        op.isRightAssociative && !regroups parent op
      else op.precedence < parent.precedence
  | .right parent =>
      if op.precedence = parent.precedence then
        !op.isRightAssociative && !regroups parent op
      else op.precedence < parent.precedence

/-- Whether an operation with one operand needs parentheses at a position.  To the right of
an operator it may always stand. -/
def unaryNeedsParens : Position → Bool
  | .left parent => UnaryOp.precedence < parent.precedence
  | .right .pow => false
  | .right parent => UnaryOp.precedence < parent.precedence
  | .free | .operand => false

def Expr.needsParens (position : Position) : Expr → Bool
  | .binary op _ _ => op.needsParens position
  | .unary _ _ => unaryNeedsParens position
  | _ => false

/-- Whether an expression at the start of a statement starts with a parenthesis, and so
could be read as arguments of the statement before. -/
def Expr.startsWithParen : Expr → Bool
  | .name _ => false
  | .member base _ _ => base.startsWithParen
  | .index base _ => base.startsWithParen
  | .call base _ inParens _ => inParens || base.startsWithParen
  | _ => true

def Stat.startsWithParen : Stat → Bool
  | .call e => e.startsWithParen
  | .assign (e :: _) _ => e.startsWithParen
  | _ => false

/-!
## Rows of pieces

A row is what stands between two commas.
-/

def enclosed (parens : Bool) (pieces : List Piece) : List Piece :=
  if parens then .token "(" :: pieces ++ [.token ")"] else pieces

def commaPieces : List Piece :=
  [.token ",", .gap]

def spacedSign (sign : String) : List Piece :=
  [.gap, .token sign, .gap]

def commaSeparated (rows : List (List Piece)) : List Piece :=
  commaPieces.intercalate rows

def Numeral.text : Numeral → String
  | .written raw => raw
  | .value x => Decimal.text x

def LocalVar.pieces (v : LocalVar) : List Piece :=
  match v.attrib with
  | none => [.token v.name.text]
  | some a => [.token v.name.text, .gap, .token "<", .token a.name, .token ">"]

def namePieces (names : List Name) : List Piece :=
  commaSeparated (names.map fun n => [.token n.text])

/-- The statements of a block, then its closing keyword: on a line of its own, or after a
gap where there are no statements. -/
def closedBody (depth : Nat) (closing : String) (body : List Stat) (pieces : List Piece) :
    List Piece :=
  match body with
  | [] => [.gap, .token closing]
  | _ :: _ => pieces ++ [.newline depth, .token closing]

/-- The fields of a table in braces: spread out, every field has a line and a comma. -/
def tablePieces (style : Style) (depth : Nat) (rows : List (List Piece)) : List Piece :=
  match style, rows with
  | _, [] => [.token "\x7b", .token "\x7d"]
  | .pretty, rows =>
      .token "\x7b" ::
        (rows.flatMap fun row => .newline (depth + 1) :: row ++ [.token ","])
        ++ [.newline depth, .token "\x7d"]
  | .compact, rows =>
      .token "\x7b" :: [Piece.token ","].intercalate rows ++ [.token "\x7d"]

/-!
## Trees

The depth is that of the line on which the tree starts.
-/

mutual

def Expr.pieces (style : Style) (depth : Nat) : Expr → List Piece
  | .name n => [.token n.text]
  | .string literal => [.token literal.raw]
  | .number numeral _ => [.numeral numeral.text]
  | .boolean value => [.token (if value then "true" else "false")]
  | .nil => [.token "nil"]
  | .vararg .. => [.token "..."]
  | .function parameters body =>
      .token "function" :: .token "(" :: commaSeparated (exprRows style depth parameters)
        ++ .token ")" :: closedBody depth "end" body (blockPieces style (depth + 1) false body)
  | .table fields => tablePieces style depth (fieldRows style (depth + 1) fields)
  | .binary op left right =>
      enclosed (left.inParens || left.needsParens (.left op)) (left.pieces style depth)
        ++ spacedSign op.sign
        ++ enclosed (right.inParens || right.needsParens (.right op)) (right.pieces style depth)
  | .unary op operand =>
      .token op.sign :: (if op = .not then [.gap] else [])
        ++ enclosed (operand.inParens || operand.needsParens .operand)
          (operand.pieces style depth)
  | .member base indexer n =>
      enclosed (base.inParens || !base.isPrefixed) (base.pieces style depth)
        ++ [.token indexer.sign, .token n.text]
  | .index base key =>
      enclosed (base.inParens || !base.isPrefixed) (base.pieces style depth)
        ++ .token "[" :: enclosed key.inParens (key.pieces style depth) ++ [.token "]"]
  | .call base arguments _ _ =>
      enclosed (base.inParens || !base.isPrefixed) (base.pieces style depth)
        ++ arguments.pieces style depth

def Args.pieces (style : Style) (depth : Nat) : Args → List Piece
  | .list arguments =>
      .token "(" :: commaSeparated (exprRows style depth arguments) ++ [.token ")"]
  | .table fields => tablePieces style depth (fieldRows style (depth + 1) fields)
  | .string literal => [.token literal.raw]

def Field.pieces (style : Style) (depth : Nat) : Field → List Piece
  | .keyed key value =>
      .token "[" :: enclosed key.inParens (key.pieces style depth) ++ .token "]"
        :: spacedSign "=" ++ enclosed value.inParens (value.pieces style depth)
  | .named n value =>
      .token n.text :: spacedSign "=" ++ enclosed value.inParens (value.pieces style depth)
  | .positional value => enclosed value.inParens (value.pieces style depth)

def Stat.pieces (style : Style) (depth : Nat) : Stat → List Piece
  | .label n => [.token "::", .token n.text, .token "::"]
  | .goto n => [.token "goto", .gap, .token n.text]
  | .leave => [.token "break"]
  | .ret [] => [.token "return"]
  | .ret (e :: values) =>
      .token "return" :: .gap :: commaSeparated (exprRows style depth (e :: values))
  | .choice clauses => clausePieces style depth clauses ++ [.newline depth, .token "end"]
  | .whileLoop condition body =>
      .token "while" :: .gap :: enclosed condition.inParens (condition.pieces style depth)
        ++ .gap :: .token "do"
        :: closedBody depth "end" body (blockPieces style (depth + 1) false body)
  | .block body =>
      .token "do" :: closedBody depth "end" body (blockPieces style (depth + 1) false body)
  | .repeatLoop body condition =>
      .token "repeat" :: closedBody depth "until" body (blockPieces style (depth + 1) false body)
        ++ .gap :: enclosed condition.inParens (condition.pieces style depth)
  | .locals vars values =>
      .token "local" :: .gap :: commaSeparated (vars.map LocalVar.pieces)
        ++ (if values.isEmpty then []
          else spacedSign "=" ++ commaSeparated (exprRows style depth values))
  | .assign targets values =>
      commaSeparated (exprRows style depth targets) ++ spacedSign "="
        ++ commaSeparated (exprRows style depth values)
  | .call e => enclosed e.inParens (e.pieces style depth)
  | .function isLocal name parameters body =>
      (if isLocal then [.token "local", .gap] else [])
        ++ .token "function" :: .gap :: optionPieces style depth name
        ++ .token "(" :: commaSeparated (exprRows style depth parameters)
        ++ .token ")" :: closedBody depth "end" body (blockPieces style (depth + 1) false body)
  | .forRange counter first last step body =>
      .token "for" :: .gap :: .token counter.text :: spacedSign "="
        ++ enclosed first.inParens (first.pieces style depth)
        ++ commaPieces ++ enclosed last.inParens (last.pieces style depth)
        ++ (if step.isSome then commaPieces else []) ++ optionPieces style depth step
        ++ .gap :: .token "do"
        :: closedBody depth "end" body (blockPieces style (depth + 1) false body)
  | .forEach vars iterators body =>
      .token "for" :: .gap :: namePieces vars ++ .gap :: .token "in" :: .gap
        :: commaSeparated (exprRows style depth iterators) ++ .gap :: .token "do"
        :: closedBody depth "end" body (blockPieces style (depth + 1) false body)

def Clause.pieces (style : Style) (depth : Nat) : Clause → List Piece
  | .first condition body =>
      .token "if" :: .gap :: enclosed condition.inParens (condition.pieces style depth)
        ++ .gap :: .token "then" :: blockPieces style (depth + 1) false body
  | .next condition body =>
      .newline depth :: .token "elseif" :: .gap
        :: enclosed condition.inParens (condition.pieces style depth)
        ++ .gap :: .token "then" :: blockPieces style (depth + 1) false body
  | .otherwise body =>
      .newline depth :: .token "else" :: blockPieces style (depth + 1) false body

def optionPieces (style : Style) (depth : Nat) : Option Expr → List Piece
  | none => []
  | some e => enclosed e.inParens (e.pieces style depth)

def exprRows (style : Style) (depth : Nat) : List Expr → List (List Piece)
  | [] => []
  | e :: rest => enclosed e.inParens (e.pieces style depth) :: exprRows style depth rest

def fieldRows (style : Style) (depth : Nat) : List Field → List (List Piece)
  | [] => []
  | f :: rest => f.pieces style depth :: fieldRows style depth rest

/-- The statements of a block, each on a new line.  A statement that follows another and
starts with a parenthesis has a semicolon in front. -/
def blockPieces (style : Style) (depth : Nat) (follows : Bool) : List Stat → List Piece
  | [] => []
  | s :: rest =>
      .newline depth :: (if follows && s.startsWithParen then [.token ";"] else [])
        ++ s.pieces style depth ++ blockPieces style depth true rest

def clausePieces (style : Style) (depth : Nat) : List Clause → List Piece
  | [] => []
  | c :: rest => c.pieces style depth ++ clausePieces style depth rest

end

/-!
## Printing

Statements and expressions are printed onto a page one by one, and a chunk as a whole.
-/

def Page.statement (page : Page) (s : Stat) : Page :=
  page.writeAll (.newline 0 :: s.pieces page.style 0)

def Page.expression (page : Page) (e : Expr) : Page :=
  page.writeAll (enclosed e.inParens (e.pieces page.style 0))

def Page.chunk (page : Page) (body : List Stat) : Page :=
  (page.writeAll (blockPieces page.style 0 false body)).endLine

def print (style : Style) (body : List Stat) : List Char :=
  ((Page.mk style [] false).chunk body).text

end Lua
end LuaBundle
