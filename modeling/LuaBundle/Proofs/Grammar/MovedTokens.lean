import LuaBundle.Proofs.Grammar.Starts
import LuaBundle.Proofs.Tree.Relined

/-!
# Moved tokens

The grammar does not look at the lines of tokens.  When the tokens of a source are moved to
other lines, every rule finds the same tree there, with its lines moved alike.
-/

namespace LuaBundle
namespace Lua

open Text
open LuaBundle.Lua.Parser

/-!
## Parsers on moved tokens
-/

def Token.relined (move : Nat → Nat) (t : Token) : Token :=
  { t with line := move t.line }

section Token

variable (move : Nat → Nat) (t : Token)

@[simp] theorem relined_kind : (t.relined move).kind = t.kind := rfl

@[simp] theorem relined_text : (t.relined move).text = t.text := rfl

@[simp] theorem relined_adjoins : (t.relined move).adjoins = t.adjoins := rfl

@[simp] theorem relined_is (text : String) : (t.relined move).is text = t.is text := rfl

end Token

/-- An outcome and the one on moved tokens: either something is found, which is carried over,
or nothing, or both fail. -/
inductive Outcome.Moved (move : Nat → Nat) (carry : α → α) : Outcome α → Outcome α → Prop where
  | found (a : α) (rest : List Token) :
      Moved move carry (.found a rest) (.found (carry a) (rest.map (Token.relined move)))
  | absent : Moved move carry .absent .absent
  | failed (line line' : Nat) : Moved move carry (.failed line) (.failed line')

/-- Two parsers, the second of which finds on moved tokens what the first one finds, carried
over. -/
structure Moves (move : Nat → Nat) (p q : Parser α) (carry : α → α) : Prop where
  run : ∀ ts, (p ts).Moved move carry (q (ts.map (Token.relined move)))

section Combinators

variable {move : Nat → Nat} {carry : α → α} {carry' : β → β}

theorem moves_pure {a b : α} (h : b = carry a) :
    Moves move (pure a : Parser α) (pure b) carry := by
  constructor
  intro ts
  subst h
  exact .found a ts

theorem Moves.bind {p q : Parser α} {f g : α → Parser β} (hp : Moves move p q carry)
    (hf : ∀ a, Moves move (f a) (g (carry a)) carry') :
    Moves move (p >>= f) (q >>= g) carry' := by
  constructor
  intro ts
  have hfirst := hp.run ts
  rw [run_bind, run_bind]
  generalize p ts = outcome at hfirst
  generalize q (ts.map (Token.relined move)) = outcome' at hfirst
  cases hfirst with
  | found a rest => exact (hf a).run rest
  | absent => exact .absent
  | failed line line' => exact .failed line line'

theorem Moves.orElse {p p' q q' : Parser α} (hp : Moves move p q carry)
    (hq : Moves move p' q' carry) : Moves move (p <|> p') (q <|> q') carry := by
  constructor
  intro ts
  have hfirst := hp.run ts
  rw [run_orElse, run_orElse]
  generalize p ts = outcome at hfirst
  generalize q (ts.map (Token.relined move)) = outcome' at hfirst
  cases hfirst with
  | found a rest => exact .found a rest
  | absent => exact hq.run ts
  | failed line line' => exact .failed line line'

theorem moves_nothing : Moves move (nothing : Parser α) nothing carry :=
  ⟨fun _ => .absent⟩

theorem moves_fail : Moves move (fail : Parser α) fail carry :=
  ⟨fun _ => .failed _ _⟩

theorem Moves.need {p q : Parser α} (hp : Moves move p q carry) :
    Moves move (Parser.need p) (Parser.need q) carry := by
  constructor
  intro ts
  have hfirst := hp.run ts
  unfold Parser.need
  generalize p ts = outcome at hfirst
  generalize q (ts.map (Token.relined move)) = outcome' at hfirst
  cases hfirst with
  | found a rest => exact .found a rest
  | absent => exact .failed _ _
  | failed line line' => exact .failed line line'

theorem Moves.needOn {p q : Parser α} (hp : Moves move p q carry) (line line' : Nat) :
    Moves move (Parser.needOn line p) (Parser.needOn line' q) carry := by
  constructor
  intro ts
  have hfirst := hp.run ts
  unfold Parser.needOn
  generalize p ts = outcome at hfirst
  generalize q (ts.map (Token.relined move)) = outcome' at hfirst
  cases hfirst with
  | found a rest => exact .found a rest
  | absent => exact .failed line line'
  | failed line line' => exact .failed line line'

theorem Moves.failHere {p q : Parser α} (hp : Moves move p q carry) :
    Moves move (Parser.failHere p) (Parser.failHere q) carry := by
  constructor
  intro ts
  have hfirst := hp.run ts
  unfold Parser.failHere
  generalize p ts = outcome at hfirst
  generalize q (ts.map (Token.relined move)) = outcome' at hfirst
  cases hfirst with
  | found a rest => exact .found a rest
  | absent => exact .absent
  | failed line line' => exact .failed _ _

theorem Moves.optional {p q : Parser α} (hp : Moves move p q carry) :
    Moves move (LuaBundle.Lua.Parser.optional p) (LuaBundle.Lua.Parser.optional q)
      (Option.map carry) := by
  constructor
  intro ts
  have hfirst := hp.run ts
  unfold LuaBundle.Lua.Parser.optional
  generalize p ts = outcome at hfirst
  generalize q (ts.map (Token.relined move)) = outcome' at hfirst
  cases hfirst with
  | found a rest => exact .found (some a) rest
  | absent => exact .found none ts
  | failed line line' => exact .failed line line'

theorem moves_measured {p q : Nat → Parser α} (h : ∀ n, Moves move (p n) (q n) carry) :
    Moves move (fun ts => p ts.length ts) (fun ts => q ts.length ts) carry := by
  constructor
  intro ts
  rw [List.length_map]
  exact (h ts.length).run ts

theorem moves_manyIn {p q : Parser α} (hp : Moves move p q carry) (fuel : Nat) :
    Moves move (manyIn p fuel) (manyIn q fuel) (List.map carry) := by
  induction fuel with
  | zero => exact moves_pure rfl
  | succ fuel ih =>
      constructor
      intro ts
      have hfirst := hp.run ts
      unfold manyIn
      generalize p ts = outcome at hfirst
      generalize q (ts.map (Token.relined move)) = outcome' at hfirst
      cases hfirst with
      | found a rest =>
          have hmore : Moves move (manyIn p fuel >>= fun more => pure (a :: more))
              (manyIn q fuel >>= fun more => pure (carry a :: more)) (List.map carry) :=
            ih.bind fun more => moves_pure rfl
          exact hmore.run rest
      | absent => exact .found [] ts
      | failed line line' => exact .failed line line'

theorem Moves.many {p q : Parser α} (hp : Moves move p q carry) :
    Moves move (Parser.many p) (Parser.many q) (List.map carry) :=
  moves_measured fun fuel => moves_manyIn hp fuel

theorem moves_growIn {step step' : α → Parser α}
    (hstep : ∀ a, Moves move (step a) (step' (carry a)) carry) (fuel : Nat) (a : α) :
    Moves move (growIn step fuel a) (growIn step' fuel (carry a)) carry := by
  induction fuel generalizing a with
  | zero => exact moves_pure rfl
  | succ fuel ih =>
      constructor
      intro ts
      have hfirst := (hstep a).run ts
      unfold growIn
      generalize step a ts = outcome at hfirst
      generalize step' (carry a) (ts.map (Token.relined move)) = outcome' at hfirst
      cases hfirst with
      | found b rest => exact (ih b).run rest
      | absent => exact .found a ts
      | failed line line' => exact .failed line line'

theorem moves_grow {step step' : α → Parser α}
    (hstep : ∀ a, Moves move (step a) (step' (carry a)) carry) (a : α) :
    Moves move (grow step a) (grow step' (carry a)) carry :=
  moves_measured fun fuel => moves_growIn hstep fuel a

theorem moves_tokenIf {condition : Token → Bool}
    (h : ∀ t : Token, condition (t.relined move) = condition t) :
    Moves move (tokenIf condition) (tokenIf condition) (Token.relined move) := by
  constructor
  intro ts
  cases ts with
  | nil => exact .absent
  | cons t rest =>
      rw [List.map_cons, tokenIf, tokenIf, h]
      cases condition t with
      | true => exact .found t rest
      | false => exact .absent

theorem moves_sign (text : String) :
    Moves move (sign text) (sign text) (Token.relined move) :=
  moves_tokenIf fun _ => rfl

theorem moves_kind (k : Lexeme.Kind) :
    Moves move (kind k) (kind k) (Token.relined move) :=
  moves_tokenIf fun _ => rfl

theorem Moves.separated {p q : Parser α} (hp : Moves move p q carry) :
    Moves move (separated p) (separated q) (List.map carry) := by
  refine hp.bind fun first => ?_
  refine ((moves_sign ",").bind fun _ => hp).many.bind fun more => ?_
  exact moves_pure rfl

end Combinators

/-!
## Lists of moved trees
-/

theorem relinedExprs_eq (move : Nat → Nat) (es : List Expr) :
    relinedExprs move es = es.map (Expr.relined move) := by
  induction es with
  | nil => rfl
  | cons e rest ih => rw [relinedExprs, List.map_cons, ih]

theorem relinedBlock_eq (move : Nat → Nat) (body : List Stat) :
    relinedBlock move body = body.map (Stat.relined move) := by
  induction body with
  | nil => rfl
  | cons s rest ih => rw [relinedBlock, List.map_cons, ih]

theorem relinedClauses_eq (move : Nat → Nat) (clauses : List Clause) :
    relinedClauses move clauses = clauses.map (Clause.relined move) := by
  induction clauses with
  | nil => rfl
  | cons c rest ih => rw [relinedClauses, List.map_cons, ih]

theorem relinedOption_eq (move : Nat → Nat) (o : Option Expr) :
    relinedOption move o = o.map (Expr.relined move) := by
  cases o <;> rfl

theorem parenthesized_relined (move : Nat → Nat) (e : Expr) :
    (e.relined move).parenthesized = e.parenthesized.relined move := by
  cases e <;> rfl

/-!
## Rules of expressions
-/

/-- An entry that finds on moved tokens what it finds, with its lines moved. -/
structure Entry.Moves (move : Nat → Nat) (e : Entry) : Prop where
  expr : ∀ precedence,
    Lua.Moves move (e.expr precedence) (e.expr precedence) (Expr.relined move)
  block : Lua.Moves move e.block e.block (relinedBlock move)

def Suffixed.relined (move : Nat → Nat) (s : Suffixed) : Suffixed :=
  { s with expr := s.expr.relined move }

section Rules

variable {move : Nat → Nat} {e : Entry}

theorem moves_name : Moves move name name id :=
  (moves_kind .name).bind fun _ => moves_pure rfl

theorem moves_stringLit : Moves move stringLit stringLit (StringLit.relined move) :=
  (moves_kind .string).bind fun _ => moves_pure rfl

theorem moves_rest : Moves move rest rest (Expr.relined move) :=
  (moves_sign "...").bind fun _ => moves_pure rfl

theorem moves_parameters : Moves move parameters parameters (relinedExprs move) := by
  have hnames : ∀ names : List Name,
      relinedExprs move (names.map Expr.name) = names.map Expr.name := by
    intro names
    induction names with
    | nil => rfl
    | cons n more ih => rw [List.map_cons, relinedExprs, ih, Expr.relined]
  apply Moves.orElse
  · refine moves_name.separated.bind fun names => ?_
    refine ((moves_sign ",").bind fun _ => moves_rest).optional.bind fun last => ?_
    apply moves_pure
    rw [relinedExprs_eq, List.map_append, ← relinedExprs_eq, hnames, List.map_id]
    cases last <;> rfl
  · refine moves_rest.optional.bind fun last => ?_
    apply moves_pure
    cases last <;> rfl

variable (he : e.Moves move)
include he

theorem moves_expressions :
    Moves move (expressions e) (expressions e) (relinedExprs move) := by
  refine (he.expr 1).optional.bind fun o => ?_
  cases o with
  | none => exact moves_pure rfl
  | some first =>
      refine ((moves_sign ",").bind fun _ => (he.expr 1).need).many.bind fun more => ?_
      apply moves_pure
      rw [relinedExprs, relinedExprs_eq]

theorem moves_field : Moves move (field e) (field e) (Field.relined move) := by
  refine Moves.orElse ?keyed (Moves.orElse ?named ?positional)
  case keyed =>
    refine (moves_sign "[").bind fun _ => ?_
    refine (he.expr 1).need.bind fun key => ?_
    refine (moves_sign "]").need.bind fun _ => ?_
    refine (moves_sign "=").need.bind fun _ => ?_
    exact (he.expr 1).need.bind fun value => moves_pure rfl
  case named =>
    refine moves_name.bind fun key => ?_
    refine (moves_sign "=").bind fun _ => ?_
    exact (he.expr 1).need.bind fun value => moves_pure rfl
  case positional => exact (he.expr 1).bind fun value => moves_pure rfl

theorem moves_fieldsIn (fuel : Nat) :
    Moves move (fieldsIn e fuel) (fieldsIn e fuel) (relinedFields move) := by
  induction fuel with
  | zero => exact moves_pure rfl
  | succ fuel ih =>
      refine (moves_field he).optional.bind fun o => ?_
      cases o with
      | none => exact moves_pure rfl
      | some first =>
          refine ((moves_sign ",").orElse (moves_sign ";")).optional.bind fun separator => ?_
          cases separator with
          | none => exact moves_pure rfl
          | some _ => exact ih.bind fun more => moves_pure rfl

theorem moves_tableFields :
    Moves move (tableFields e) (tableFields e)
      fun found => (relinedFields move found.1, move found.2) := by
  refine (moves_sign _).bind fun opening => ?_
  refine (moves_measured (moves_fieldsIn he)).bind fun fields => ?_
  exact (moves_sign _).need.bind fun _ => moves_pure rfl

theorem moves_functionBody :
    Moves move (functionBody e) (functionBody e)
      fun found => (relinedExprs move found.1, relinedBlock move found.2) := by
  refine (moves_sign "(").need.bind fun _ => ?_
  refine moves_parameters.bind fun ps => ?_
  refine (moves_sign ")").need.bind fun _ => ?_
  refine he.block.bind fun body => ?_
  exact (moves_sign "end").need.bind fun _ => moves_pure rfl

theorem moves_arguments :
    Moves move (arguments e) (arguments e)
      fun found => (found.1.relined move, move found.2) := by
  refine Moves.orElse ?list (Moves.orElse ?table ?string)
  case list =>
    refine (moves_sign "(").bind fun opening => ?_
    refine (moves_expressions he).bind fun list => ?_
    exact (moves_sign ")").need.bind fun _ => moves_pure rfl
  case table => exact (moves_tableFields he).bind fun found => moves_pure rfl
  case string => exact moves_stringLit.bind fun literal => moves_pure rfl

theorem moves_suffix (base : Suffixed) :
    Moves move (suffix e base) (suffix e (base.relined move)) (Suffixed.relined move) := by
  refine Moves.orElse ?call (Moves.orElse ?method (Moves.orElse ?index ?member))
  case call => exact (moves_arguments he).bind fun found => moves_pure rfl
  case method =>
    refine (moves_sign ":").bind fun _ => ?_
    refine moves_name.need.bind fun method => ?_
    exact (moves_arguments he).need.bind fun found => moves_pure rfl
  case index =>
    refine (moves_sign "[").bind fun _ => ?_
    refine (he.expr 1).need.bind fun key => ?_
    exact (moves_sign "]").need.bind fun _ => moves_pure rfl
  case member =>
    refine (moves_sign ".").bind fun _ => ?_
    exact moves_name.need.bind fun member => moves_pure rfl

theorem moves_paren : Moves move (paren e) (paren e) (Expr.relined move) := by
  refine (moves_sign "(").bind fun _ => ?_
  refine (he.expr 1).need.bind fun inner => ?_
  exact (moves_sign ")").need.bind fun _ => moves_pure (parenthesized_relined move inner)

theorem moves_suffixed : Moves move (suffixed e) (suffixed e) (Suffixed.relined move) := by
  refine Moves.bind ?start fun start => moves_grow (moves_suffix he) start
  apply Moves.orElse
  · exact (moves_paren he).bind fun inner => moves_pure rfl
  · exact moves_name.bind fun n => moves_pure rfl

omit he in
theorem moves_unaryOp : Moves move unaryOp unaryOp id := by
  constructor
  intro ts
  cases ts with
  | nil => exact .absent
  | cons t more =>
      rw [List.map_cons, unaryOp, unaryOp, relined_kind, relined_text]
      split
      · exact .found _ more
      · exact .absent

omit he in
theorem moves_binaryOp : Moves move binaryOp binaryOp id := by
  constructor
  intro ts
  cases ts with
  | nil => exact .absent
  | cons t more =>
      cases more with
      | nil =>
          rw [List.map_cons, List.map_nil, binaryOp, binaryOp]
          rw [relined_kind, relined_text]
          cases if t.kind = .reserved then BinaryOp.ofSign? t.text else none with
          | some op => exact .found op []
          | none => exact .absent
      | cons u others =>
          rw [List.map_cons, List.map_cons, binaryOp, binaryOp]
          rw [relined_kind, relined_text, relined_is, relined_is, relined_adjoins]
          by_cases hshift : (t.is ">" && u.is ">" && u.adjoins) = true
          · rw [if_pos hshift, if_pos hshift]
            exact .found _ others
          · rw [if_neg hshift, if_neg hshift]
            cases if t.kind = .reserved then BinaryOp.ofSign? t.text else none with
            | some op => exact .found op (u :: others)
            | none => exact .absent

theorem moves_value : Moves move (value e) (value e) (Expr.relined move) := by
  refine Moves.orElse ?nil (Moves.orElse ?no (Moves.orElse ?yes (Moves.orElse ?number
    (Moves.orElse ?string (Moves.orElse moves_rest (Moves.orElse ?function
      (Moves.orElse ?table ?suffixed)))))))
  case nil => exact (moves_sign "nil").bind fun _ => moves_pure rfl
  case no => exact (moves_sign "false").bind fun _ => moves_pure rfl
  case yes => exact (moves_sign "true").bind fun _ => moves_pure rfl
  case number => exact (moves_kind .number).bind fun t => moves_pure rfl
  case string => exact moves_stringLit.bind fun literal => moves_pure rfl
  case function =>
    refine (moves_sign "function").bind fun _ => ?_
    exact (moves_functionBody he).bind fun found => moves_pure rfl
  case table => exact (moves_tableFields he).bind fun found => moves_pure rfl
  case suffixed => exact (moves_suffixed he).bind fun s => moves_pure rfl

theorem moves_operand : Moves move (operand e) (operand e) (Expr.relined move) := by
  refine Moves.orElse ?unary (moves_value he)
  refine moves_unaryOp.bind fun op => ?_
  exact (he.expr _).need.bind fun inner => moves_pure rfl

theorem moves_expression (precedence : Nat) :
    Moves move (expression e precedence) (expression e precedence) (Expr.relined move) := by
  have hjoined : ∀ left : Expr, Moves move (joined e precedence left)
      (joined e precedence (left.relined move)) (Expr.relined move) := by
    intro left
    refine moves_binaryOp.bind fun op => ?_
    rw [id]
    split
    · exact (he.expr _).need.bind fun right => moves_pure rfl
    · exact moves_nothing
  exact (moves_operand he).bind fun first => moves_grow hjoined first

end Rules

/-!
## Rules of statements
-/

section Statements

variable {move : Nat → Nat} {e : Entry}

theorem moves_functionName :
    Moves move functionName functionName (Expr.relined move) := by
  have hfold : ∀ (members : List Name) (base : Expr),
      (members.foldl (fun base member => Expr.member base .dot member) base).relined move =
        members.foldl (fun base member => Expr.member base .dot member) (base.relined move) := by
    intro members
    induction members with
    | nil => exact fun _ => rfl
    | cons n more ih => exact fun base => ih _
  refine moves_name.need.bind fun first => ?_
  refine ((moves_sign ".").bind fun _ => moves_name).many.bind fun members => ?_
  rw [List.map_id]
  refine ((moves_sign ":").bind fun _ => moves_name.need).optional.bind fun method => ?_
  cases method with
  | none => exact moves_pure (hfold members (.name first)).symm
  | some n => exact moves_pure (by rw [Expr.relined, hfold]; rfl)

theorem moves_localVar : Moves move localVar localVar (LocalVar.relined move) := by
  refine moves_name.need.bind fun n => ?_
  have hattrib : Moves move
      (do
        let _ ← sign "<"
        let t ← Parser.need (kind .name)
        let _ ← Parser.need (sign ">")
        return ({ name := t.text, line := t.line } : Attribute))
      (do
        let _ ← sign "<"
        let t ← Parser.need (kind .name)
        let _ ← Parser.need (sign ">")
        return ({ name := t.text, line := t.line } : Attribute))
      (Attribute.relined move) := by
    refine (moves_sign "<").bind fun _ => ?_
    refine (moves_kind .name).need.bind fun t => ?_
    exact (moves_sign ">").need.bind fun _ => moves_pure rfl
  exact hattrib.optional.bind fun attrib => moves_pure rfl

variable (he : e.Moves move)
include he

theorem moves_values :
    Moves move (separated (e.expr 1)) (separated (e.expr 1)) (relinedExprs move) := by
  have hcarry : relinedExprs move = List.map (Expr.relined move) := funext (relinedExprs_eq move)
  rw [hcarry]
  exact (he.expr 1).separated

theorem moves_target : Moves move (target e) (target e) (Expr.relined move) := by
  refine (moves_suffixed he).bind fun s => ?_
  rcases s with ⟨expr, ending⟩
  cases ending with
  | name => exact moves_pure rfl
  | index => exact moves_pure rfl
  | paren => exact moves_nothing
  | call => exact moves_nothing

theorem moves_callOrAssign :
    Moves move (callOrAssign e) (callOrAssign e) (Stat.relined move) := by
  refine (moves_suffixed he).bind fun s => ?_
  rcases s with ⟨expr, ending⟩
  have hassign : Moves move
      (do
        let more ← many (do let _ ← sign ","; target e)
        let _ ← sign "="
        let values ← Parser.need (separated (e.expr 1))
        return Stat.assign (expr :: more) values)
      (do
        let more ← many (do let _ ← sign ","; target e)
        let _ ← sign "="
        let values ← Parser.need (separated (e.expr 1))
        return Stat.assign (expr.relined move :: more) values)
      (Stat.relined move) := by
    refine ((moves_sign ",").bind fun _ => moves_target he).many.bind fun more => ?_
    refine (moves_sign "=").bind fun _ => ?_
    refine (moves_values he).need.bind fun values => moves_pure ?_
    rw [Stat.relined, relinedExprs, relinedExprs_eq move more]
  cases ending with
  | name => exact hassign
  | index => exact hassign
  | paren => exact moves_nothing
  | call => exact moves_pure rfl

theorem moves_doBlock : Moves move (doBlock e) (doBlock e) (Stat.relined move) := by
  refine (moves_sign "do").bind fun _ => ?_
  refine he.block.bind fun body => ?_
  exact (moves_sign "end").need.bind fun _ => moves_pure rfl

theorem moves_whileLoop : Moves move (whileLoop e) (whileLoop e) (Stat.relined move) := by
  refine (moves_sign "while").bind fun _ => ?_
  refine (he.expr 1).need.bind fun condition => ?_
  refine (moves_sign "do").need.bind fun _ => ?_
  refine he.block.bind fun body => ?_
  exact (moves_sign "end").need.bind fun _ => moves_pure rfl

theorem moves_repeatLoop : Moves move (repeatLoop e) (repeatLoop e) (Stat.relined move) := by
  refine (moves_sign "repeat").bind fun _ => ?_
  refine he.block.bind fun body => ?_
  refine (moves_sign "until").need.bind fun _ => ?_
  exact (he.expr 1).need.bind fun condition => moves_pure rfl

theorem moves_nextClause :
    Moves move (nextClause e) (nextClause e) (Clause.relined move) := by
  refine (moves_sign "elseif").bind fun t => ?_
  refine ((he.expr 1).needOn t.line _).bind fun condition => ?_
  refine ((moves_sign "then").needOn t.line _).bind fun _ => ?_
  exact he.block.bind fun body => moves_pure rfl

theorem moves_choice : Moves move (choice e) (choice e) (Stat.relined move) := by
  refine (moves_sign "if").bind fun _ => ?_
  refine (he.expr 1).need.bind fun condition => ?_
  refine (moves_sign "then").need.bind fun _ => ?_
  refine he.block.bind fun body => ?_
  refine (moves_nextClause he).many.bind fun more => ?_
  refine ((moves_sign "else").bind fun _ => he.block).optional.bind fun last => ?_
  refine (moves_sign "end").need.bind fun _ => moves_pure ?_
  cases last <;>
    simp [Stat.relined, relinedClauses_eq, Clause.relined]

theorem moves_forRange : Moves move (forRange e) (forRange e) (Stat.relined move) := by
  refine (moves_sign "for").bind fun _ => ?_
  refine moves_name.need.bind fun counter => ?_
  refine (moves_sign "=").bind fun _ => ?_
  refine (he.expr 1).need.bind fun first => ?_
  refine (moves_sign ",").need.bind fun _ => ?_
  refine (he.expr 1).need.bind fun last => ?_
  refine ((moves_sign ",").bind fun _ => (he.expr 1).need).optional.bind fun step => ?_
  refine (moves_sign "do").need.bind fun _ => ?_
  refine he.block.bind fun body => ?_
  refine (moves_sign "end").need.bind fun _ => moves_pure ?_
  rw [Stat.relined, relinedOption_eq, id]

theorem moves_forEach : Moves move (forEach e) (forEach e) (Stat.relined move) := by
  refine (moves_sign "for").bind fun _ => ?_
  refine moves_name.separated.need.bind fun vars => ?_
  rw [List.map_id]
  refine (moves_sign "in").need.bind fun _ => ?_
  refine (moves_values he).need.bind fun iterators => ?_
  refine (moves_sign "do").need.bind fun _ => ?_
  refine he.block.bind fun body => ?_
  exact (moves_sign "end").need.bind fun _ => moves_pure rfl

theorem moves_functionDeclaration :
    Moves move (functionDeclaration e) (functionDeclaration e) (Stat.relined move) := by
  refine (moves_sign "function").bind fun _ => ?_
  refine moves_functionName.bind fun name => ?_
  exact (moves_functionBody he).bind fun found => moves_pure rfl

theorem moves_localFunction :
    Moves move (localFunction e) (localFunction e) (Stat.relined move) := by
  refine (moves_sign "local").bind fun _ => ?_
  refine (moves_sign "function").bind fun _ => ?_
  refine moves_name.need.bind fun name => ?_
  exact (moves_functionBody he).bind fun found => moves_pure rfl

theorem moves_locals : Moves move (locals e) (locals e) (Stat.relined move) := by
  refine (moves_sign "local").bind fun _ => ?_
  refine moves_localVar.bind fun first => ?_
  refine ((moves_sign ",").bind fun _ => moves_localVar).many.bind fun more => ?_
  refine ((moves_sign "=").bind fun _ =>
    (moves_values he).need.failHere).optional.bind fun values => moves_pure ?_
  cases values <;> rfl

theorem moves_statement :
    Moves move (statement e) (statement e) (Stat.relined move) := by
  refine (moves_callOrAssign he).orElse ?_
  refine (moves_doBlock he).orElse ?_
  refine (moves_whileLoop he).orElse ?_
  refine (moves_repeatLoop he).orElse ?_
  refine (moves_choice he).orElse ?_
  refine (moves_forRange he).orElse ?_
  refine (moves_forEach he).orElse ?_
  refine (moves_functionDeclaration he).orElse ?_
  refine (moves_localFunction he).orElse ?_
  refine (moves_locals he).orElse (Moves.orElse ?goto ?label)
  case goto =>
    refine (moves_sign "goto").bind fun _ => ?_
    exact moves_name.need.bind fun n => moves_pure rfl
  case label =>
    refine (moves_sign "::").bind fun _ => ?_
    refine moves_name.need.bind fun n => ?_
    exact (moves_sign "::").need.bind fun _ => moves_pure rfl

theorem moves_lastStatement :
    Moves move (lastStatement e) (lastStatement e) (Stat.relined move) := by
  apply Moves.orElse
  · refine (moves_sign "return").bind fun _ => ?_
    exact (moves_expressions he).bind fun values => moves_pure rfl
  · exact (moves_sign "break").bind fun _ => moves_pure rfl

omit he in
theorem Moves.terminated {p : Parser Stat} (hp : Moves move p p (Stat.relined move)) :
    Moves move (terminated p) (terminated p) (Stat.relined move) := by
  refine hp.bind fun s => ?_
  exact (moves_sign ";").optional.bind fun _ => moves_pure rfl

theorem moves_block : Moves move (block e) (block e) (relinedBlock move) := by
  refine (moves_statement he).terminated.many.bind fun body => ?_
  refine (moves_lastStatement he).terminated.optional.bind fun last => moves_pure ?_
  cases last <;> simp [relinedBlock_eq]

end Statements

/-!
## Sources
-/

theorem moves_entry (move : Nat → Nat) (depth : Nat) : (entry depth).Moves move := by
  induction depth with
  | zero => exact ⟨fun _ => moves_fail, moves_fail⟩
  | succ depth ih => exact ⟨fun precedence => moves_expression ih precedence, moves_block ih⟩

/-- The statements of a source are those of the source moved, with their lines moved, and both
have some or neither has. -/
theorem program_relined (move : Nat → Nat) (ts : List Token) :
    (∀ body, program ts = .ok body →
      program (ts.map (Token.relined move)) = .ok (relinedBlock move body)) ∧
    ∀ line, program ts = .error line →
      ∃ line', program (ts.map (Token.relined move)) = .error line' := by
  have hsource : Moves move
      (do
        let body ← (entry (ts.length + 1)).block
        let _ ← Parser.need (kind .finish)
        return body)
      (do
        let body ← (entry (ts.length + 1)).block
        let _ ← Parser.need (kind .finish)
        return body)
      (relinedBlock move) := by
    refine (moves_entry move _).block.bind fun body => ?_
    exact (moves_kind .finish).need.bind fun _ => moves_pure rfl
  have hrun := hsource.run ts
  unfold program
  rw [List.length_map]
  dsimp only
  generalize (do
    let body ← (entry (ts.length + 1)).block
    let _ ← Parser.need (kind .finish)
    return body : Parser (List Stat)) = source at hrun ⊢
  generalize source ts = outcome at hrun ⊢
  generalize source (ts.map (Token.relined move)) = outcome' at hrun ⊢
  cases hrun with
  | found body rest => simp
  | absent => simp
  | failed line line' => simp

end Lua
end LuaBundle
