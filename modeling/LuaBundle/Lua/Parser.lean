import LuaBundle.Lua.Token

/-!
# Parsers on tokens

A parser finds a value at the start of the tokens, or finds nothing there, or fails on a
line.  Finding nothing leaves the choice to another parser; a failure ends the parse.  When
several parsers run in sequence and a later one finds nothing, the sequence finds nothing;
`need` turns this into a failure on the line of the token that stands there instead.
-/

namespace LuaBundle
namespace Lua

/-- The outcome of a parser. -/
inductive Outcome (α : Type) where
  | found (value : α) (rest : List Token)
  | absent
  | failed (line : Nat)
deriving Repr

def Parser (α : Type) : Type :=
  List Token → Outcome α

def currentLine : List Token → Nat
  | [] => 0
  | t :: _ => t.line

namespace Parser

/-!
## Sequence and choice
-/

protected def pure (a : α) : Parser α :=
  fun ts => .found a ts

protected def bind (p : Parser α) (f : α → Parser β) : Parser β :=
  fun ts =>
    match p ts with
    | .found a rest => f a rest
    | .absent => .absent
    | .failed line => .failed line

instance : Monad Parser where
  pure := Parser.pure
  bind := Parser.bind

protected def orElse (p q : Parser α) : Parser α :=
  fun ts =>
    match p ts with
    | .absent => q ts
    | outcome => outcome

instance : OrElse (Parser α) where
  orElse p q := Parser.orElse p (q ())

def nothing : Parser α :=
  fun _ => .absent

def fail : Parser α :=
  fun ts => .failed (currentLine ts)

def need (p : Parser α) : Parser α :=
  fun ts =>
    match p ts with
    | .absent => .failed (currentLine ts)
    | outcome => outcome

def needOn (line : Nat) (p : Parser α) : Parser α :=
  fun ts =>
    match p ts with
    | .absent => .failed line
    | outcome => outcome

def failHere (p : Parser α) : Parser α :=
  fun ts =>
    match p ts with
    | .failed _ => .failed (currentLine ts)
    | outcome => outcome

def optional (p : Parser α) : Parser (Option α) :=
  fun ts =>
    match p ts with
    | .found a rest => .found (some a) rest
    | .absent => .found none ts
    | .failed line => .failed line

/-!
## Repetition

Every round consumes at least one token, so as many rounds as there are tokens are enough.
-/

def manyIn (p : Parser α) : Nat → Parser (List α)
  | 0 => pure []
  | fuel + 1 => fun ts =>
      match p ts with
      | .found a rest => Parser.bind (manyIn p fuel) (fun more => Parser.pure (a :: more)) rest
      | .absent => .found [] ts
      | .failed line => .failed line

def many (p : Parser α) : Parser (List α) :=
  fun ts => manyIn p ts.length ts

/-- A value changed by steps as long as there are some, in at most `fuel` rounds. -/
def growIn (step : α → Parser α) : Nat → α → Parser α
  | 0, a => pure a
  | fuel + 1, a => fun ts =>
      match step a ts with
      | .found b rest => growIn step fuel b rest
      | .absent => .found a ts
      | .failed line => .failed line

def grow (step : α → Parser α) (a : α) : Parser α :=
  fun ts => growIn step ts.length a ts

/-!
## Tokens

A parser of a single token finds nothing where the token is another one.
-/

def tokenIf (condition : Token → Bool) : Parser Token
  | [] => .absent
  | t :: rest => if condition t then .found t rest else .absent

def sign (text : String) : Parser Token :=
  tokenIf (·.is text)

def kind (k : Lexeme.Kind) : Parser Token :=
  tokenIf (·.kind == k)

/-- Values with commas between them; a comma without a value after it is left alone. -/
def separated (p : Parser α) : Parser (List α) := do
  let first ← p
  let more ← many (do let _ ← sign ","; p)
  return first :: more

end Parser
end Lua
end LuaBundle
