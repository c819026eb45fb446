import LuaBundle.Proofs.Tree.Stripped

/-!
# The string literals of a tree

All string literals of a tree in reading order, arguments and keys of tables included, or
those that are outside some calls.  A layout keeps them all, and where a tree has no faults
they denote bytes.
-/

namespace LuaBundle
namespace Lua

open Text

mutual

/-- The string literals in an expression, but for those in the calls that `skip` picks. -/
def Expr.strings (skip : Expr → Bool) : Expr → List StringLit
  | .name _ | .number .. | .boolean _ | .nil | .vararg .. => []
  | .string literal => [literal]
  | .function _ body => blockStrings skip body
  | .table fields => fieldStrings skip fields
  | .binary _ left right => left.strings skip ++ right.strings skip
  | .unary _ operand => operand.strings skip
  | .member base _ _ => base.strings skip
  | .index base key => base.strings skip ++ key.strings skip
  | .call base arguments inParens line =>
      if skip (.call base arguments inParens line) then []
      else base.strings skip ++ arguments.strings skip

def Args.strings (skip : Expr → Bool) : Args → List StringLit
  | .list arguments => exprStrings skip arguments
  | .table fields => fieldStrings skip fields
  | .string literal => [literal]

def Field.strings (skip : Expr → Bool) : Field → List StringLit
  | .keyed key value => key.strings skip ++ value.strings skip
  | .named _ value => value.strings skip
  | .positional value => value.strings skip

def Stat.strings (skip : Expr → Bool) : Stat → List StringLit
  | .label _ | .goto _ | .leave => []
  | .ret values => exprStrings skip values
  | .choice clauses => clauseStrings skip clauses
  | .whileLoop condition body => condition.strings skip ++ blockStrings skip body
  | .block body => blockStrings skip body
  | .repeatLoop body condition => blockStrings skip body ++ condition.strings skip
  | .locals _ values => exprStrings skip values
  | .assign targets values => exprStrings skip targets ++ exprStrings skip values
  | .call e => e.strings skip
  | .function _ name _ body => optionStrings skip name ++ blockStrings skip body
  | .forRange _ first last step body =>
      first.strings skip ++ last.strings skip ++ optionStrings skip step ++ blockStrings skip body
  | .forEach _ iterators body => exprStrings skip iterators ++ blockStrings skip body

def Clause.strings (skip : Expr → Bool) : Clause → List StringLit
  | .first condition body => condition.strings skip ++ blockStrings skip body
  | .next condition body => condition.strings skip ++ blockStrings skip body
  | .otherwise body => blockStrings skip body

def optionStrings (skip : Expr → Bool) : Option Expr → List StringLit
  | none => []
  | some e => e.strings skip

def exprStrings (skip : Expr → Bool) : List Expr → List StringLit
  | [] => []
  | e :: rest => e.strings skip ++ exprStrings skip rest

def fieldStrings (skip : Expr → Bool) : List Field → List StringLit
  | [] => []
  | f :: rest => f.strings skip ++ fieldStrings skip rest

def blockStrings (skip : Expr → Bool) : List Stat → List StringLit
  | [] => []
  | s :: rest => s.strings skip ++ blockStrings skip rest

def clauseStrings (skip : Expr → Bool) : List Clause → List StringLit
  | [] => []
  | c :: rest => c.strings skip ++ clauseStrings skip rest

end

def noCall (_ : Expr) : Bool :=
  false

theorem call_strings (base : Expr) (arguments : Args) (inParens : Bool) (line : Nat) :
    (Expr.call base arguments inParens line).strings noCall =
      base.strings noCall ++ arguments.strings noCall := by
  rw [Expr.strings]
  rfl

/-!
## String literals of a layout
-/

/-- A way to put operations together that keeps the order of what is in them. -/
def KeepsStrings (join : BinaryOp → Expr → Expr → Expr) : Prop :=
  ∀ op left right,
    (join op left right).strings noCall = left.strings noCall ++ right.strings noCall

theorem keepsStrings_binary : KeepsStrings .binary :=
  fun _ _ _ => by rw [Expr.strings]

theorem keepsStrings_regrouped : KeepsStrings regrouped :=
  regrouped_gathered keepsStrings_binary

section Layout

variable {join : BinaryOp → Expr → Expr → Expr}

theorem append_stripped {front back : List StringLit} {front' back' : List StringLit}
    (h : front' = front.map StringLit.stripped) (h' : back' = back.map StringLit.stripped) :
    front' ++ back' = (front ++ back).map StringLit.stripped := by
  rw [h, h', List.map_append]

mutual

theorem Expr.strings_stripped (keeps : KeepsStrings join) : (e : Expr) →
    (e.stripped join).strings noCall = (e.strings noCall).map StringLit.stripped
  | .name _ | .string _ | .number .. | .boolean _ | .nil | .vararg .. => rfl
  | .function _ body => block_strings_stripped keeps body
  | .table fields => fields_strings_stripped keeps fields
  | .binary op left right => by
      rw [Expr.stripped, keeps, Expr.strings]
      exact append_stripped (left.strings_stripped keeps) (right.strings_stripped keeps)
  | .unary _ operand => operand.strings_stripped keeps
  | .member base _ _ => base.strings_stripped keeps
  | .index base key => append_stripped (base.strings_stripped keeps) (key.strings_stripped keeps)
  | .call base arguments _ _ => by
      rw [Expr.stripped, call_strings, call_strings]
      exact append_stripped (base.strings_stripped keeps) (arguments.strings_stripped keeps)

theorem Args.strings_stripped (keeps : KeepsStrings join) : (arguments : Args) →
    (arguments.stripped join).strings noCall = (arguments.strings noCall).map StringLit.stripped
  | .list arguments => exprs_strings_stripped keeps arguments
  | .table fields => fields_strings_stripped keeps fields
  | .string _ => rfl

theorem Field.strings_stripped (keeps : KeepsStrings join) : (f : Field) →
    (f.stripped join).strings noCall = (f.strings noCall).map StringLit.stripped
  | .keyed key value => append_stripped (key.strings_stripped keeps) (value.strings_stripped keeps)
  | .named _ value => value.strings_stripped keeps
  | .positional value => value.strings_stripped keeps

theorem Stat.strings_stripped (keeps : KeepsStrings join) : (s : Stat) →
    (s.stripped join).strings noCall = (s.strings noCall).map StringLit.stripped
  | .label _ | .goto _ | .leave => rfl
  | .ret values => exprs_strings_stripped keeps values
  | .choice clauses => clauses_strings_stripped keeps clauses
  | .whileLoop condition body =>
      append_stripped (condition.strings_stripped keeps) (block_strings_stripped keeps body)
  | .block body => block_strings_stripped keeps body
  | .repeatLoop body condition =>
      append_stripped (block_strings_stripped keeps body) (condition.strings_stripped keeps)
  | .locals _ values => exprs_strings_stripped keeps values
  | .assign targets values =>
      append_stripped (exprs_strings_stripped keeps targets) (exprs_strings_stripped keeps values)
  | .call e => e.strings_stripped keeps
  | .function _ name _ body =>
      append_stripped (option_strings_stripped keeps name) (block_strings_stripped keeps body)
  | .forRange _ first last step body =>
      append_stripped (append_stripped
        (append_stripped (first.strings_stripped keeps) (last.strings_stripped keeps))
        (option_strings_stripped keeps step)) (block_strings_stripped keeps body)
  | .forEach _ iterators body =>
      append_stripped (exprs_strings_stripped keeps iterators) (block_strings_stripped keeps body)

theorem Clause.strings_stripped (keeps : KeepsStrings join) : (c : Clause) →
    (c.stripped join).strings noCall = (c.strings noCall).map StringLit.stripped
  | .first condition body | .next condition body =>
      append_stripped (condition.strings_stripped keeps) (block_strings_stripped keeps body)
  | .otherwise body => block_strings_stripped keeps body

theorem option_strings_stripped (keeps : KeepsStrings join) : (o : Option Expr) →
    optionStrings noCall (strippedOption join o) = (optionStrings noCall o).map StringLit.stripped
  | none => rfl
  | some e => e.strings_stripped keeps

theorem exprs_strings_stripped (keeps : KeepsStrings join) : (es : List Expr) →
    exprStrings noCall (strippedExprs join es) = (exprStrings noCall es).map StringLit.stripped
  | [] => rfl
  | e :: rest => append_stripped (e.strings_stripped keeps) (exprs_strings_stripped keeps rest)

theorem fields_strings_stripped (keeps : KeepsStrings join) : (fs : List Field) →
    fieldStrings noCall (strippedFields join fs) = (fieldStrings noCall fs).map StringLit.stripped
  | [] => rfl
  | f :: rest => append_stripped (f.strings_stripped keeps) (fields_strings_stripped keeps rest)

theorem block_strings_stripped (keeps : KeepsStrings join) : (body : List Stat) →
    blockStrings noCall (strippedBlock join body) =
      (blockStrings noCall body).map StringLit.stripped
  | [] => rfl
  | s :: rest => append_stripped (s.strings_stripped keeps) (block_strings_stripped keeps rest)

theorem clauses_strings_stripped (keeps : KeepsStrings join) : (clauses : List Clause) →
    clauseStrings noCall (strippedClauses join clauses) =
      (clauseStrings noCall clauses).map StringLit.stripped
  | [] => rfl
  | c :: rest => append_stripped (c.strings_stripped keeps) (clauses_strings_stripped keeps rest)

end

/-- Trees that have the same layout have the same string literals, but for their lines. -/
theorem block_bytes_congr {join' : BinaryOp → Expr → Expr → Expr} {first second : List Stat}
    (keeps : KeepsStrings join) (keeps' : KeepsStrings join')
    (h : strippedBlock join first = strippedBlock join' second) (encoding : Encoding) :
    (blockStrings noCall first).map (StringLit.bytes encoding) =
      (blockStrings noCall second).map (StringLit.bytes encoding) := by
  have hlines : ∀ literals : List StringLit, (literals.map StringLit.stripped).map
      (StringLit.bytes encoding) = literals.map (StringLit.bytes encoding) := by
    intro literals
    rw [List.map_map]
    rfl
  rw [← hlines, ← block_strings_stripped keeps, h, block_strings_stripped keeps', hlines]

end Layout

/-!
## String literals and faults
-/

section Faults

variable {encoding : Encoding} {skip : Expr → Bool}

def Reports (encoding : Encoding) (literals : List StringLit) (faults : List Fault) : Prop :=
  literals.flatMap (StringLit.faults encoding) ⊆ faults

theorem Reports.append {front back : List StringLit} {faults faults' : List Fault}
    (h : Reports encoding front faults) (h' : Reports encoding back faults') :
    Reports encoding (front ++ back) (faults ++ faults') := by
  rw [Reports, List.flatMap_append]
  exact List.append_subset.mpr
    ⟨List.Subset.trans h (List.subset_append_left _ _),
      List.Subset.trans h' (List.subset_append_right _ _)⟩

theorem reports_nil (faults : List Fault) : Reports encoding [] faults :=
  List.nil_subset _

theorem reports_string (literal : StringLit) :
    Reports encoding [literal] (literal.faults encoding) := by
  rw [Reports, List.flatMap_singleton]
  exact List.Subset.refl _

mutual

theorem Expr.strings_reported : (rest : Bool) → (e : Expr) →
    Reports encoding (e.strings skip) (e.faults encoding rest)
  | _, .name _ | _, .number .. | _, .boolean _ | _, .nil | _, .vararg .. => reports_nil _
  | _, .string literal => reports_string literal
  | _, .function _ body => block_strings_reported _ body
  | rest, .table fields => fields_strings_reported rest fields
  | rest, .binary _ left right => (left.strings_reported rest).append (right.strings_reported rest)
  | rest, .unary _ operand => operand.strings_reported rest
  | rest, .member base _ _ => base.strings_reported rest
  | rest, .index base key => (base.strings_reported rest).append (key.strings_reported rest)
  | rest, .call base arguments inParens line => by
      rw [Expr.strings]
      split
      · exact reports_nil _
      · exact (base.strings_reported rest).append (arguments.strings_reported rest)

theorem Args.strings_reported : (rest : Bool) → (arguments : Args) →
    Reports encoding (arguments.strings skip) (arguments.faults encoding rest)
  | rest, .list arguments => exprs_strings_reported rest arguments
  | rest, .table fields => fields_strings_reported rest fields
  | _, .string literal => reports_string literal

theorem Field.strings_reported : (rest : Bool) → (f : Field) →
    Reports encoding (f.strings skip) (f.faults encoding rest)
  | rest, .keyed key value => (key.strings_reported rest).append (value.strings_reported rest)
  | rest, .named _ value => value.strings_reported rest
  | rest, .positional value => value.strings_reported rest

theorem Stat.strings_reported : (rest : Bool) → (s : Stat) →
    Reports encoding (s.strings skip) (s.faults encoding rest)
  | _, .label _ | _, .goto _ | _, .leave => reports_nil _
  | rest, .ret values => exprs_strings_reported rest values
  | rest, .choice clauses => clauses_strings_reported rest clauses
  | rest, .whileLoop condition body =>
      (condition.strings_reported rest).append (block_strings_reported rest body)
  | rest, .block body => block_strings_reported rest body
  | rest, .repeatLoop body condition =>
      (block_strings_reported rest body).append (condition.strings_reported rest)
  | rest, .locals _ values => (reports_nil _).append (exprs_strings_reported rest values)
  | rest, .assign targets values =>
      (exprs_strings_reported rest targets).append (exprs_strings_reported rest values)
  | rest, .call e => e.strings_reported rest
  | rest, .function _ name _ body =>
      (option_strings_reported rest name).append (block_strings_reported _ body)
  | rest, .forRange _ first last step body =>
      (((first.strings_reported rest).append (last.strings_reported rest)).append
        (option_strings_reported rest step)).append (block_strings_reported rest body)
  | rest, .forEach _ iterators body =>
      (exprs_strings_reported rest iterators).append (block_strings_reported rest body)

theorem Clause.strings_reported : (rest : Bool) → (c : Clause) →
    Reports encoding (c.strings skip) (c.faults encoding rest)
  | rest, .first condition body | rest, .next condition body =>
      (condition.strings_reported rest).append (block_strings_reported rest body)
  | rest, .otherwise body => block_strings_reported rest body

theorem option_strings_reported : (rest : Bool) → (o : Option Expr) →
    Reports encoding (optionStrings skip o) (optionFaults encoding rest o)
  | _, none => reports_nil _
  | rest, some e => e.strings_reported rest

theorem exprs_strings_reported : (rest : Bool) → (es : List Expr) →
    Reports encoding (exprStrings skip es) (exprFaults encoding rest es)
  | _, [] => reports_nil _
  | rest, e :: more => (e.strings_reported rest).append (exprs_strings_reported rest more)

theorem fields_strings_reported : (rest : Bool) → (fs : List Field) →
    Reports encoding (fieldStrings skip fs) (fieldFaults encoding rest fs)
  | _, [] => reports_nil _
  | rest, f :: more => (f.strings_reported rest).append (fields_strings_reported rest more)

theorem block_strings_reported : (rest : Bool) → (body : List Stat) →
    Reports encoding (blockStrings skip body) (blockFaults encoding rest body)
  | _, [] => reports_nil _
  | rest, s :: more => (s.strings_reported rest).append (block_strings_reported rest more)

theorem clauses_strings_reported : (rest : Bool) → (clauses : List Clause) →
    Reports encoding (clauseStrings skip clauses) (clauseFaults encoding rest clauses)
  | _, [] => reports_nil _
  | rest, c :: more => (c.strings_reported rest).append (clauses_strings_reported rest more)

end

theorem block_bytes_ok {rest : Bool} {body : List Stat} (h : blockFaults encoding rest body = []) :
    ∀ literal ∈ blockStrings skip body, ∃ bytes, literal.bytes encoding = .ok bytes := by
  intro literal hliteral
  have hreported : Reports encoding (blockStrings skip body) (blockFaults encoding rest body) :=
    block_strings_reported rest body
  have hnone : literal.faults encoding = [] := by
    rw [Reports, h, List.subset_nil, List.flatMap_eq_nil_iff] at hreported
    exact hreported literal hliteral
  unfold StringLit.faults at hnone
  cases hbytes : literal.bytes encoding with
  | ok bytes => exact ⟨bytes, rfl⟩
  | error escape =>
      rw [hbytes] at hnone
      cases hnone

end Faults

end Lua
end LuaBundle
