import LuaBundle.Proofs.Lexing.Spelling
import LuaBundle.Proofs.Tree.Stripped
import LuaBundle.Text.Utf8

/-!
# Well-formed trees

The trees that the grammar can give.  Their names, numbers and string literals are lexemes,
a method is selected only to be called, `...` in front of a suffix stands in parentheses, and
the parts of a statement are those that its syntax asks for.
-/

namespace LuaBundle
namespace Lua

open Text

/-- Whether a character may stand in a source: in bytes, only one that is a byte. -/
def admits : Encoding → Char → Bool
  | .utf8, _ => true
  | .bytes, c => c.toNat < 0x100

/-- A text that is one lexeme of a kind and may stand in a source. -/
structure Spelled (encoding : Encoding) (kind : Lexeme.Kind) (text : String) : Prop where
  alone : Alone kind text
  admitted : text.toList.all (admits encoding) = true

/-!
## Leaves and heads

What the grammar asks of numbers, of declared names, and of the heads of functions.
-/

def Numeral.WellFormed (encoding : Encoding) : Numeral → Prop
  | .written raw => Spelled encoding .number raw
  | .value _ => False

def LocalVar.WellFormed (encoding : Encoding) (v : LocalVar) : Prop :=
  Spelled encoding .name v.name.text ∧ ∀ a ∈ v.attrib, Spelled encoding .name a.name

def Parameters (encoding : Encoding) : List Expr → Prop
  | [] => True
  | [.vararg inParens _] => inParens = false
  | .name n :: rest => Spelled encoding .name n.text ∧ Parameters encoding rest
  | _ => False

def Expr.IsDotted (encoding : Encoding) : Expr → Prop
  | .name n => Spelled encoding .name n.text
  | .member base indexer n =>
      indexer = .dot ∧ base.IsDotted encoding ∧ Spelled encoding .name n.text
  | _ => False

/-- The name of a declared function: a dotted one with a method maybe, and a single name for
a local function. -/
def FunctionName (encoding : Encoding) (isLocal : Bool) : Option Expr → Prop
  | some (.name n) => Spelled encoding .name n.text
  | some (.member base _ n) =>
      isLocal = false ∧ base.IsDotted encoding ∧ Spelled encoding .name n.text
  | _ => False

def Expr.isRest : Expr → Bool
  | .vararg inParens _ => !inParens
  | _ => false

def Expr.isTarget : Expr → Bool
  | .name _ | .member .. | .index .. => true
  | _ => false

/-- Whether clauses may follow the first one: further conditions, then maybe an `else`. -/
def furtherClauses : List Clause → Bool
  | [] => true
  | [.otherwise _] => true
  | .next .. :: rest => furtherClauses rest
  | _ => false

def choiceClauses : List Clause → Bool
  | .first .. :: rest => furtherClauses rest
  | _ => false

def Stat.isLast : Stat → Bool
  | .ret _ | .leave => true
  | _ => false

/-!
## Trees
-/

mutual

/-- A well-formed expression.  Only the base of a call, a callee, may select a method. -/
def Expr.WellFormed (encoding : Encoding) (callee : Bool) : Expr → Prop
  | .name n => Spelled encoding .name n.text
  | .string literal => Spelled encoding .string literal.raw
  | .number numeral _ => numeral.WellFormed encoding
  | .boolean _ | .nil | .vararg .. => True
  | .function parameters body => Parameters encoding parameters ∧ blockWellFormed encoding body
  | .table fields => fieldsWellFormed encoding fields
  | .binary _ left right =>
      left.WellFormed encoding false ∧ right.WellFormed encoding false
  | .unary _ operand => operand.WellFormed encoding false
  | .member base indexer n =>
      (indexer = .colon → callee = true) ∧ base.isRest = false ∧
        base.WellFormed encoding false ∧ Spelled encoding .name n.text
  | .index base key =>
      base.isRest = false ∧ base.WellFormed encoding false ∧ key.WellFormed encoding false
  | .call base arguments _ _ =>
      base.isRest = false ∧ base.WellFormed encoding true ∧ arguments.WellFormed encoding

def Args.WellFormed (encoding : Encoding) : Args → Prop
  | .list arguments => exprsWellFormed encoding arguments
  | .table fields => fieldsWellFormed encoding fields
  | .string literal => Spelled encoding .string literal.raw

def Field.WellFormed (encoding : Encoding) : Field → Prop
  | .keyed key value => key.WellFormed encoding false ∧ value.WellFormed encoding false
  | .named n value => Spelled encoding .name n.text ∧ value.WellFormed encoding false
  | .positional value => value.WellFormed encoding false

def Stat.WellFormed (encoding : Encoding) : Stat → Prop
  | .label n => Spelled encoding .name n.text
  | .goto n => Spelled encoding .name n.text
  | .leave => True
  | .ret values => exprsWellFormed encoding values
  | .choice clauses => choiceClauses clauses = true ∧ clausesWellFormed encoding clauses
  | .whileLoop condition body =>
      condition.WellFormed encoding false ∧ blockWellFormed encoding body
  | .block body => blockWellFormed encoding body
  | .repeatLoop body condition =>
      blockWellFormed encoding body ∧ condition.WellFormed encoding false
  | .locals vars values =>
      vars ≠ [] ∧ (∀ v ∈ vars, v.WellFormed encoding) ∧ exprsWellFormed encoding values
  | .assign targets values =>
      targets ≠ [] ∧ values ≠ [] ∧ targets.all Expr.isTarget = true ∧
        exprsWellFormed encoding targets ∧ exprsWellFormed encoding values
  | .call e => e.isCall = true ∧ e.inParens = false ∧ e.WellFormed encoding false
  | .function isLocal name parameters body =>
      FunctionName encoding isLocal name ∧ Parameters encoding parameters ∧
        blockWellFormed encoding body
  | .forRange counter first last step body =>
      Spelled encoding .name counter.text ∧ first.WellFormed encoding false ∧
        last.WellFormed encoding false ∧ optionWellFormed encoding step ∧
        blockWellFormed encoding body
  | .forEach vars iterators body =>
      vars ≠ [] ∧ (∀ n ∈ vars, Spelled encoding .name n.text) ∧ iterators ≠ [] ∧
        exprsWellFormed encoding iterators ∧ blockWellFormed encoding body

def Clause.WellFormed (encoding : Encoding) : Clause → Prop
  | .first condition body =>
      condition.WellFormed encoding false ∧ blockWellFormed encoding body
  | .next condition body =>
      condition.WellFormed encoding false ∧ blockWellFormed encoding body
  | .otherwise body => blockWellFormed encoding body

def optionWellFormed (encoding : Encoding) : Option Expr → Prop
  | none => True
  | some e => e.WellFormed encoding false

def exprsWellFormed (encoding : Encoding) : List Expr → Prop
  | [] => True
  | e :: rest => e.WellFormed encoding false ∧ exprsWellFormed encoding rest

def fieldsWellFormed (encoding : Encoding) : List Field → Prop
  | [] => True
  | f :: rest => f.WellFormed encoding ∧ fieldsWellFormed encoding rest

/-- The statements of a well-formed block.  One that ends a block stands last. -/
def blockWellFormed (encoding : Encoding) : List Stat → Prop
  | [] => True
  | s :: rest =>
      s.WellFormed encoding ∧ (s.isLast = true → rest = []) ∧ blockWellFormed encoding rest

def clausesWellFormed (encoding : Encoding) : List Clause → Prop
  | [] => True
  | c :: rest => c.WellFormed encoding ∧ clausesWellFormed encoding rest

end

theorem exprsWellFormed_iff {encoding : Encoding} {es : List Expr} :
    exprsWellFormed encoding es ↔ ∀ e ∈ es, e.WellFormed encoding false := by
  induction es with
  | nil => simp [exprsWellFormed]
  | cons e rest ih => simp [exprsWellFormed, ih]

theorem fieldsWellFormed_iff {encoding : Encoding} {fs : List Field} :
    fieldsWellFormed encoding fs ↔ ∀ f ∈ fs, f.WellFormed encoding := by
  induction fs with
  | nil => simp [fieldsWellFormed]
  | cons f rest ih => simp [fieldsWellFormed, ih]

/-!
## Parameters and names of functions
-/

theorem parameters_wellFormed {encoding : Encoding} :
    {parameters : List Expr} → Parameters encoding parameters →
    exprsWellFormed encoding parameters
  | [], _ => trivial
  | .name _ :: _, h => ⟨h.1, parameters_wellFormed h.2⟩
  | [.vararg .., ], _ => ⟨trivial, trivial⟩

theorem isDotted_wellFormed {encoding : Encoding} : {e : Expr} → e.IsDotted encoding →
    e.WellFormed encoding false
  | .name _, h => h
  | .member base _ _, ⟨rfl, hbase, hn⟩ => by
      refine ⟨by simp, ?_, isDotted_wellFormed hbase, hn⟩
      cases base <;> first | rfl | cases hbase

theorem functionName_wellFormed {encoding : Encoding} {isLocal : Bool} {name : Option Expr}
    (h : FunctionName encoding isLocal name) : ∃ e, name = some e ∧ e.WellFormed encoding true := by
  cases name with
  | none => cases h
  | some e =>
      refine ⟨e, rfl, ?_⟩
      cases e with
      | name n => exact h
      | member base indexer n =>
          rcases h with ⟨_, hbase, hn⟩
          refine ⟨fun _ => rfl, ?_, isDotted_wellFormed hbase, hn⟩
          cases base <;> first | rfl | cases hbase
      | _ => cases h

/-!
## Lines and marks

Whether a tree is well-formed does not depend on lines and marks.
-/

theorem localVar_wellFormed_stripped (encoding : Encoding) (v : LocalVar) :
    v.stripped.WellFormed encoding ↔ v.WellFormed encoding := by
  rcases v with ⟨name, attrib⟩
  cases attrib with
  | none => exact Iff.rfl
  | some a =>
      simp only [LocalVar.stripped, LocalVar.WellFormed, Option.map_some, Name.stripped,
        Option.mem_def, Option.some.injEq, forall_eq', Attribute.stripped]

theorem parameters_stripped (encoding : Encoding) (parameters : List Expr) :
    Parameters encoding (strippedExprs .binary parameters) ↔ Parameters encoding parameters := by
  induction parameters with
  | nil => exact Iff.rfl
  | cons e rest ih =>
      cases e with
      | name n =>
          simp only [strippedExprs, Expr.stripped, Parameters, ih]
          exact Iff.rfl
      | vararg inParens line => cases rest <;> exact Iff.rfl
      | _ => cases rest <;> exact Iff.rfl

theorem isDotted_stripped (encoding : Encoding) : (e : Expr) →
    ((e.stripped .binary).IsDotted encoding ↔ e.IsDotted encoding)
  | .name _ => Iff.rfl
  | .member base _ _ => by
      simp only [Expr.stripped, Expr.IsDotted, isDotted_stripped encoding base]
      exact Iff.rfl
  | .string _ | .number .. | .boolean _ | .nil | .vararg .. | .function .. | .table _
  | .binary .. | .unary .. | .index .. | .call .. => Iff.rfl

theorem functionName_stripped (encoding : Encoding) (isLocal : Bool) (name : Option Expr) :
    FunctionName encoding isLocal (strippedOption .binary name) ↔
      FunctionName encoding isLocal name := by
  cases name with
  | none => exact Iff.rfl
  | some e =>
      cases e with
      | member base indexer n =>
          simp only [strippedOption, Expr.stripped, FunctionName, isDotted_stripped encoding base]
          exact Iff.rfl
      | _ => exact Iff.rfl

theorem isRest_stripped (e : Expr) : (e.stripped .binary).isRest = e.isRest := by
  cases e <;> rfl

theorem isCall_stripped (e : Expr) : (e.stripped .binary).isCall = e.isCall := by
  cases e <;> rfl

theorem isTarget_stripped (es : List Expr) :
    (strippedExprs .binary es).all Expr.isTarget = es.all Expr.isTarget := by
  induction es with
  | nil => rfl
  | cons e rest ih =>
      rw [strippedExprs, List.all_cons, List.all_cons, ih]
      cases e <;> rfl

theorem furtherClauses_stripped (clauses : List Clause) :
    furtherClauses (strippedClauses .binary clauses) = furtherClauses clauses := by
  induction clauses with
  | nil => rfl
  | cons c rest ih =>
      cases c with
      | first condition body => rfl
      | next condition body =>
          simp only [strippedClauses, Clause.stripped, furtherClauses, ih]
      | otherwise body => cases rest <;> rfl

theorem choiceClauses_stripped (clauses : List Clause) :
    choiceClauses (strippedClauses .binary clauses) = choiceClauses clauses := by
  cases clauses with
  | nil => rfl
  | cons c rest =>
      cases c with
      | first condition body => exact furtherClauses_stripped rest
      | _ => rfl

theorem isLast_stripped (s : Stat) : (s.stripped .binary).isLast = s.isLast := by
  cases s <;> rfl

theorem strippedExprs_eq_nil (es : List Expr) : strippedExprs .binary es = [] ↔ es = [] := by
  cases es <;> simp [strippedExprs]

theorem strippedBlock_eq_nil (body : List Stat) : strippedBlock .binary body = [] ↔ body = [] := by
  cases body <;> simp [strippedBlock]

section WellFormed

variable (encoding : Encoding)

mutual

theorem Expr.wellFormed_stripped (callee : Bool) : (e : Expr) →
    ((e.stripped .binary).WellFormed encoding callee ↔ e.WellFormed encoding callee)
  | .name _ => Iff.rfl
  | .string _ => Iff.rfl
  | .number .. => Iff.rfl
  | .boolean _ => Iff.rfl
  | .nil => Iff.rfl
  | .vararg .. => Iff.rfl
  | .function parameters body => by
      simp only [Expr.stripped, Expr.WellFormed, parameters_stripped,
        block_wellFormed_stripped body]
  | .table fields => by
      simp only [Expr.stripped, Expr.WellFormed, fields_wellFormed_stripped fields]
  | .binary _ left right => by
      simp only [Expr.stripped, Expr.WellFormed, left.wellFormed_stripped,
        right.wellFormed_stripped]
  | .unary _ operand => by
      simp only [Expr.stripped, Expr.WellFormed, operand.wellFormed_stripped]
  | .member base _ _ => by
      simp only [Expr.stripped, Expr.WellFormed, isRest_stripped, base.wellFormed_stripped,
        Name.stripped]
  | .index base key => by
      simp only [Expr.stripped, Expr.WellFormed, isRest_stripped, base.wellFormed_stripped,
        key.wellFormed_stripped]
  | .call base arguments _ _ => by
      simp only [Expr.stripped, Expr.WellFormed, isRest_stripped, base.wellFormed_stripped,
        arguments.wellFormed_stripped]

theorem Args.wellFormed_stripped : (arguments : Args) →
    ((arguments.stripped .binary).WellFormed encoding ↔ arguments.WellFormed encoding)
  | .list arguments => by
      simp only [Args.stripped, Args.WellFormed, exprs_wellFormed_stripped arguments]
  | .table fields => by
      simp only [Args.stripped, Args.WellFormed, fields_wellFormed_stripped fields]
  | .string _ => Iff.rfl

theorem Field.wellFormed_stripped : (f : Field) →
    ((f.stripped .binary).WellFormed encoding ↔ f.WellFormed encoding)
  | .keyed key value => by
      simp only [Field.stripped, Field.WellFormed, key.wellFormed_stripped,
        value.wellFormed_stripped]
  | .named _ value => by
      simp only [Field.stripped, Field.WellFormed, value.wellFormed_stripped, Name.stripped]
  | .positional value => by
      simp only [Field.stripped, Field.WellFormed, value.wellFormed_stripped]

theorem Stat.wellFormed_stripped : (s : Stat) →
    ((s.stripped .binary).WellFormed encoding ↔ s.WellFormed encoding)
  | .label _ => Iff.rfl
  | .goto _ => Iff.rfl
  | .leave => Iff.rfl
  | .ret values => by
      simp only [Stat.stripped, Stat.WellFormed, exprs_wellFormed_stripped values]
  | .choice clauses => by
      simp only [Stat.stripped, Stat.WellFormed, choiceClauses_stripped,
        clauses_wellFormed_stripped clauses]
  | .whileLoop condition body => by
      simp only [Stat.stripped, Stat.WellFormed, condition.wellFormed_stripped,
        block_wellFormed_stripped body]
  | .block body => by
      simp only [Stat.stripped, Stat.WellFormed, block_wellFormed_stripped body]
  | .repeatLoop body condition => by
      simp only [Stat.stripped, Stat.WellFormed, condition.wellFormed_stripped,
        block_wellFormed_stripped body]
  | .locals vars values => by
      simp only [Stat.stripped, Stat.WellFormed, ne_eq, List.map_eq_nil_iff, List.forall_mem_map,
        localVar_wellFormed_stripped, exprs_wellFormed_stripped values]
  | .assign targets values => by
      simp only [Stat.stripped, Stat.WellFormed, ne_eq, strippedExprs_eq_nil, isTarget_stripped,
        exprs_wellFormed_stripped targets, exprs_wellFormed_stripped values]
  | .call e => by
      simp only [Stat.stripped, Stat.WellFormed, isCall_stripped,
        inParens_stripped keepsLayout_binary, e.wellFormed_stripped]
  | .function _ name parameters body => by
      simp only [Stat.stripped, Stat.WellFormed, functionName_stripped, parameters_stripped,
        block_wellFormed_stripped body]
  | .forRange counter first last step body => by
      simp only [Stat.stripped, Stat.WellFormed, first.wellFormed_stripped,
        last.wellFormed_stripped, option_wellFormed_stripped step,
        block_wellFormed_stripped body, Name.stripped]
  | .forEach vars iterators body => by
      simp only [Stat.stripped, Stat.WellFormed, ne_eq, List.map_eq_nil_iff, List.forall_mem_map,
        strippedExprs_eq_nil, exprs_wellFormed_stripped iterators,
        block_wellFormed_stripped body, Name.stripped]

theorem Clause.wellFormed_stripped : (c : Clause) →
    ((c.stripped .binary).WellFormed encoding ↔ c.WellFormed encoding)
  | .first condition body => by
      simp only [Clause.stripped, Clause.WellFormed, condition.wellFormed_stripped,
        block_wellFormed_stripped body]
  | .next condition body => by
      simp only [Clause.stripped, Clause.WellFormed, condition.wellFormed_stripped,
        block_wellFormed_stripped body]
  | .otherwise body => by
      simp only [Clause.stripped, Clause.WellFormed, block_wellFormed_stripped body]

theorem option_wellFormed_stripped : (o : Option Expr) →
    (optionWellFormed encoding (strippedOption .binary o) ↔ optionWellFormed encoding o)
  | none => Iff.rfl
  | some e => by
      simp only [strippedOption, optionWellFormed, e.wellFormed_stripped]

theorem exprs_wellFormed_stripped : (es : List Expr) →
    (exprsWellFormed encoding (strippedExprs .binary es) ↔ exprsWellFormed encoding es)
  | [] => Iff.rfl
  | e :: rest => by
      simp only [strippedExprs, exprsWellFormed, e.wellFormed_stripped,
        exprs_wellFormed_stripped rest]

theorem fields_wellFormed_stripped : (fs : List Field) →
    (fieldsWellFormed encoding (strippedFields .binary fs) ↔ fieldsWellFormed encoding fs)
  | [] => Iff.rfl
  | f :: rest => by
      simp only [strippedFields, fieldsWellFormed, f.wellFormed_stripped,
        fields_wellFormed_stripped rest]

theorem block_wellFormed_stripped : (body : List Stat) →
    (blockWellFormed encoding (strippedBlock .binary body) ↔ blockWellFormed encoding body)
  | [] => Iff.rfl
  | s :: rest => by
      simp only [strippedBlock, blockWellFormed, s.wellFormed_stripped, isLast_stripped,
        strippedBlock_eq_nil, block_wellFormed_stripped rest]

theorem clauses_wellFormed_stripped : (clauses : List Clause) →
    (clausesWellFormed encoding (strippedClauses .binary clauses) ↔
      clausesWellFormed encoding clauses)
  | [] => Iff.rfl
  | c :: rest => by
      simp only [strippedClauses, clausesWellFormed, c.wellFormed_stripped,
        clauses_wellFormed_stripped rest]

end

end WellFormed

end Lua
end LuaBundle
