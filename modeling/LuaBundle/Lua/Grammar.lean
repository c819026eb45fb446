import LuaBundle.Lua.Parser

/-!
# The grammar

Each rule is a parser that refers to the nested expressions and blocks through an entry.
An entry of depth `n + 1` is built from the entry of depth `n`: every nested expression or
block stands behind a token that the rule has consumed, so the number of tokens bounds the
depth.  An expression that starts with a name or a parenthesis is read with all its
suffixes at once; what its last suffix is decides whether it is a call or a variable.

The names in the resulting tree are not yet marked as local.
-/

namespace LuaBundle
namespace Lua

open LuaBundle.Lua.Parser

/-!
## Precedence
-/

def BinaryOp.precedence : BinaryOp → Nat
  | .or => 1
  | .and => 2
  | .lt | .gt | .le | .ge | .ne | .eq => 3
  | .bitOr => 4
  | .bitXor => 5
  | .bitAnd => 6
  | .shiftLeft | .shiftRight => 7
  | .concat => 8
  | .add | .sub => 9
  | .mul | .div | .floorDiv | .mod => 10
  | .pow => 12

def UnaryOp.precedence : Nat :=
  11

def BinaryOp.rightPrecedence (op : BinaryOp) : Nat :=
  if op.isRightAssociative then op.precedence else op.precedence + 1

/-!
## Entries
-/

/-- The parsers of nested expressions, at a precedence, and of nested blocks. -/
structure Entry where
  expr : Nat → Parser Expr
  block : Parser (List Stat)

def name : Parser Name := do
  let t ← kind .name
  return { text := t.text }

/-- Expressions with commas between them, maybe none; after a comma there must be one. -/
def expressions (e : Entry) : Parser (List Expr) := do
  match ← optional (e.expr 1) with
  | none => return []
  | some first =>
      let more ← many (do let _ ← sign ","; need (e.expr 1))
      return first :: more

/-!
## Tables and functions

Fields are separated by commas or semicolons.  Parameters are names, and `...` may stand last
or alone.
-/

def field (e : Entry) : Parser Field :=
  (do
    let _ ← sign "["
    let key ← need (e.expr 1)
    let _ ← need (sign "]")
    let _ ← need (sign "=")
    let value ← need (e.expr 1)
    return .keyed key value)
  <|> (do
    let key ← name
    let _ ← sign "="
    let value ← need (e.expr 1)
    return .named key value)
  <|> (do
    let value ← e.expr 1
    return .positional value)

/-- The fields of a table, each but the last with a separator after it, in at most `fuel`
rounds. -/
def fieldsIn (e : Entry) : Nat → Parser (List Field)
  | 0 => pure []
  | fuel + 1 => do
      match ← optional (field e) with
      | none => return []
      | some first =>
          match ← optional (sign "," <|> sign ";") with
          | none => return [first]
          | some _ =>
              let more ← fieldsIn e fuel
              return first :: more

def tableFields (e : Entry) : Parser (List Field × Nat) := do
  let opening ← sign "\x7b"
  let fields ← fun ts => fieldsIn e ts.length ts
  let _ ← need (sign "\x7d")
  return (fields, opening.line)

def rest : Parser Expr := do
  let t ← sign "..."
  return .vararg false t.line

def parameters : Parser (List Expr) :=
  (do
    let names ← separated name
    let last ← optional (do let _ ← sign ","; rest)
    return names.map Expr.name ++ last.toList)
  <|> (do
    let last ← optional rest
    return last.toList)

def functionBody (e : Entry) : Parser (List Expr × List Stat) := do
  let _ ← need (sign "(")
  let parameters ← parameters
  let _ ← need (sign ")")
  let body ← e.block
  let _ ← need (sign "end")
  return (parameters, body)

/-!
## Suffixed expressions

A name or an expression in parentheses takes members, indices, method names and arguments as
long as they follow.
-/

/-- What an expression that starts with a name or a parenthesis ends in. -/
inductive Ending where
  | name
  | paren
  | index
  | call
deriving DecidableEq, Repr

/-- An expression that starts with a name or a parenthesis. -/
structure Suffixed where
  expr : Expr
  ending : Ending

def stringLit : Parser StringLit := do
  let t ← kind .string
  return { raw := t.text, line := t.line }

def arguments (e : Entry) : Parser (Args × Nat) :=
  (do
    let opening ← sign "("
    let list ← expressions e
    let _ ← need (sign ")")
    return (.list list, opening.line))
  <|> (do
    let (fields, line) ← tableFields e
    return (.table fields, line))
  <|> (do
    let literal ← stringLit
    return (.string literal, literal.line))

def suffix (e : Entry) (base : Suffixed) : Parser Suffixed :=
  (do
    let (list, line) ← arguments e
    return ⟨.call base.expr list false line, .call⟩)
  <|> (do
    let _ ← sign ":"
    let method ← need name
    let (list, line) ← need (arguments e)
    return ⟨.call (.member base.expr .colon method) list false line, .call⟩)
  <|> (do
    let _ ← sign "["
    let key ← need (e.expr 1)
    let _ ← need (sign "]")
    return ⟨.index base.expr key, .index⟩)
  <|> (do
    let _ ← sign "."
    let member ← need name
    return ⟨.member base.expr .dot member, .index⟩)

def paren (e : Entry) : Parser Expr := do
  let _ ← sign "("
  let inner ← need (e.expr 1)
  let _ ← need (sign ")")
  return inner.parenthesized

def suffixed (e : Entry) : Parser Suffixed := do
  let start ←
    (do let inner ← paren e; return ⟨inner, .paren⟩)
    <|> (do let name ← name; return ⟨.name name, .name⟩)
  grow (suffix e) start

/-!
## Expressions

Operators with two operands are joined from the left as long as their precedence allows; the
right operand is read at a precedence of its own.
-/

def unaryOp : Parser UnaryOp
  | [] => .absent
  | t :: rest =>
      match if t.kind = .reserved then UnaryOp.ofSign? t.text else none with
      | some op => .found op rest
      | none => .absent

/-- An operator with two operands.  Two adjoining signs `>` are one operator. -/
def binaryOp : Parser BinaryOp
  | [] => .absent
  | t :: rest =>
      let single : Outcome BinaryOp :=
        match if t.kind = .reserved then BinaryOp.ofSign? t.text else none with
        | some op => .found op rest
        | none => .absent
      match rest with
      | [] => single
      | u :: others =>
          if t.is ">" && u.is ">" && u.adjoins then .found .shiftRight others else single

def value (e : Entry) : Parser Expr :=
  (do let _ ← sign "nil"; return .nil)
  <|> (do let _ ← sign "false"; return .boolean false)
  <|> (do let _ ← sign "true"; return .boolean true)
  <|> (do let t ← kind .number; return .number (.written t.text) t.line)
  <|> (do let literal ← stringLit; return .string literal)
  <|> rest
  <|> (do
    let _ ← sign "function"
    let (parameters, body) ← functionBody e
    return .function parameters body)
  <|> (do let (fields, _) ← tableFields e; return .table fields)
  <|> (do let s ← suffixed e; return s.expr)

def operand (e : Entry) : Parser Expr :=
  (do
    let op ← unaryOp
    let operand ← need (e.expr UnaryOp.precedence)
    return .unary op operand)
  <|> value e

/-- An expression joined with one more operand, if an operator of at least the precedence
follows. -/
def joined (e : Entry) (precedence : Nat) (left : Expr) : Parser Expr := do
  let op ← binaryOp
  if precedence ≤ op.precedence then
    let right ← need (e.expr op.rightPrecedence)
    return .binary op left right
  else
    nothing

def expression (e : Entry) (precedence : Nat) : Parser Expr := do
  let first ← operand e
  grow (joined e precedence) first

/-!
## Statements

Each kind of statement has a rule of its own.  What starts with no keyword is a call or an
assignment.
-/

def target (e : Entry) : Parser Expr := do
  let s ← suffixed e
  match s.ending with
  | .name | .index => return s.expr
  | .paren | .call => nothing

def callOrAssign (e : Entry) : Parser Stat := do
  let s ← suffixed e
  match s.ending with
  | .call => return .call s.expr
  | .paren => nothing
  | .name | .index =>
      let more ← many (do let _ ← sign ","; target e)
      let _ ← sign "="
      let values ← need (separated (e.expr 1))
      return .assign (s.expr :: more) values

def doBlock (e : Entry) : Parser Stat := do
  let _ ← sign "do"
  let body ← e.block
  let _ ← need (sign "end")
  return .block body

def whileLoop (e : Entry) : Parser Stat := do
  let _ ← sign "while"
  let condition ← need (e.expr 1)
  let _ ← need (sign "do")
  let body ← e.block
  let _ ← need (sign "end")
  return .whileLoop condition body

def repeatLoop (e : Entry) : Parser Stat := do
  let _ ← sign "repeat"
  let body ← e.block
  let _ ← need (sign "until")
  let condition ← need (e.expr 1)
  return .repeatLoop body condition

/-- A further condition of a choice.  When the condition or the `then` is missing, the line
of the `elseif` is reported. -/
def nextClause (e : Entry) : Parser Clause := do
  let t ← sign "elseif"
  let condition ← needOn t.line (e.expr 1)
  let _ ← needOn t.line (sign "then")
  let body ← e.block
  return .next condition body

def choice (e : Entry) : Parser Stat := do
  let _ ← sign "if"
  let condition ← need (e.expr 1)
  let _ ← need (sign "then")
  let body ← e.block
  let more ← many (nextClause e)
  let last ← optional (do let _ ← sign "else"; e.block)
  let _ ← need (sign "end")
  return .choice (.first condition body :: more ++ (last.map Clause.otherwise).toList)

def forRange (e : Entry) : Parser Stat := do
  let _ ← sign "for"
  let counter ← need name
  let _ ← sign "="
  let first ← need (e.expr 1)
  let _ ← need (sign ",")
  let last ← need (e.expr 1)
  let step ← optional (do let _ ← sign ","; need (e.expr 1))
  let _ ← need (sign "do")
  let body ← e.block
  let _ ← need (sign "end")
  return .forRange counter first last step body

def forEach (e : Entry) : Parser Stat := do
  let _ ← sign "for"
  let vars ← need (separated name)
  let _ ← need (sign "in")
  let iterators ← need (separated (e.expr 1))
  let _ ← need (sign "do")
  let body ← e.block
  let _ ← need (sign "end")
  return .forEach vars iterators body

/-- The name of a declared function: members with points, and a method at the end. -/
def functionName : Parser Expr := do
  let first ← need name
  let members ← many (do let _ ← sign "."; name)
  let base := members.foldl (fun base member => Expr.member base .dot member) (.name first)
  match ← optional (do let _ ← sign ":"; need name) with
  | none => return base
  | some method => return .member base .colon method

def functionDeclaration (e : Entry) : Parser Stat := do
  let _ ← sign "function"
  let name ← functionName
  let (parameters, body) ← functionBody e
  return .function false (some name) parameters body

def localFunction (e : Entry) : Parser Stat := do
  let _ ← sign "local"
  let _ ← sign "function"
  let name ← need name
  let (parameters, body) ← functionBody e
  return .function true (some (.name name)) parameters body

def localVar : Parser LocalVar := do
  let name ← need name
  let attrib ← optional do
    let _ ← sign "<"
    let t ← need (kind .name)
    let _ ← need (sign ">")
    return { name := t.text, line := t.line }
  return { name, attrib }

/-- Local variables.  A failure among their values is reported on the line of the first
token after the sign. -/
def locals (e : Entry) : Parser Stat := do
  let _ ← sign "local"
  let first ← localVar
  let more ← many (do let _ ← sign ","; localVar)
  let values ← optional (do let _ ← sign "="; failHere (need (separated (e.expr 1))))
  return .locals (first :: more) (values.getD [])

def gotoLabel : Parser Stat := do
  let _ ← sign "goto"
  let label ← need name
  return .goto label

def label : Parser Stat := do
  let _ ← sign "::"
  let label ← need name
  let _ ← need (sign "::")
  return .label label

def statement (e : Entry) : Parser Stat :=
  callOrAssign e <|> doBlock e <|> whileLoop e <|> repeatLoop e <|> choice e <|> forRange e
    <|> forEach e <|> functionDeclaration e <|> localFunction e <|> locals e <|> gotoLabel
    <|> label

def lastStatement (e : Entry) : Parser Stat :=
  (do
    let _ ← sign "return"
    let values ← expressions e
    return .ret values)
  <|> (do
    let _ ← sign "break"
    return .leave)

def terminated (p : Parser Stat) : Parser Stat := do
  let s ← p
  let _ ← optional (sign ";")
  return s

def block (e : Entry) : Parser (List Stat) := do
  let body ← many (terminated (statement e))
  let last ← optional (terminated (lastStatement e))
  return body ++ last.toList

/-!
## The whole source
-/

def entry : Nat → Entry
  | 0 => ⟨fun _ => fail, fail⟩
  | depth + 1 =>
      let e := entry depth
      ⟨expression e, block e⟩

/-- The statements of a whole source, or the line of its first syntax error. -/
def program (ts : List Token) : Except Nat (List Stat) :=
  let source : Parser (List Stat) := do
    let body ← (entry (ts.length + 1)).block
    let _ ← need (kind .finish)
    return body
  match source ts with
  | .found body _ => .ok body
  | .absent => .error (currentLine ts)
  | .failed line => .error line

end Lua
end LuaBundle
