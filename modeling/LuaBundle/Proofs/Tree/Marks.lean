import LuaBundle.Proofs.Tree.Relined
import LuaBundle.Proofs.Tree.Stripped

/-!
# Marks of local names

Marking the references of a tree changes its marks only, and does not look at the marks that
it had or at lines.  The marks of a tree are settled in a scope when they are the ones that
its names alone would get there.
-/

namespace LuaBundle
namespace Lua

/-!
## Only marks change
-/

theorem strippedExprs_declared (join : BinaryOp → Expr → Expr → Expr) (parameters : List Expr) :
    strippedExprs join (parameters.map Expr.declared) = strippedExprs join parameters := by
  induction parameters with
  | nil => rfl
  | cons e rest ih =>
      rw [List.map_cons, strippedExprs, strippedExprs, ih]
      cases e <;> rfl

mutual

theorem Expr.stripped_resolve (scope : List String) : (e : Expr) →
    (e.resolve scope).stripped .binary = e.stripped .binary
  | .name _ => rfl
  | .string _ => rfl
  | .number .. => rfl
  | .boolean _ => rfl
  | .nil => rfl
  | .vararg .. => rfl
  | .function parameters body => by
      simp only [Expr.resolve, Expr.stripped, strippedExprs_declared, block_stripped_resolve _ body]
  | .table fields => by
      simp only [Expr.resolve, Expr.stripped, fields_stripped_resolve scope fields]
  | .binary _ left right => by
      simp only [Expr.resolve, Expr.stripped, left.stripped_resolve scope,
        right.stripped_resolve scope]
  | .unary _ operand => by
      simp only [Expr.resolve, Expr.stripped, operand.stripped_resolve scope]
  | .member base _ _ => by
      simp only [Expr.resolve, Expr.stripped, base.stripped_resolve scope]
  | .index base key => by
      simp only [Expr.resolve, Expr.stripped, base.stripped_resolve scope,
        key.stripped_resolve scope]
  | .call base arguments _ _ => by
      simp only [Expr.resolve, Expr.stripped, base.stripped_resolve scope,
        arguments.stripped_resolve scope]

theorem Args.stripped_resolve (scope : List String) : (arguments : Args) →
    (arguments.resolve scope).stripped .binary = arguments.stripped .binary
  | .list arguments => by
      simp only [Args.resolve, Args.stripped, exprs_stripped_resolve scope arguments]
  | .table fields => by
      simp only [Args.resolve, Args.stripped, fields_stripped_resolve scope fields]
  | .string _ => rfl

theorem Field.stripped_resolve (scope : List String) : (f : Field) →
    (f.resolve scope).stripped .binary = f.stripped .binary
  | .keyed key value => by
      simp only [Field.resolve, Field.stripped, key.stripped_resolve scope,
        value.stripped_resolve scope]
  | .named _ value => by
      simp only [Field.resolve, Field.stripped, value.stripped_resolve scope]
  | .positional value => by
      simp only [Field.resolve, Field.stripped, value.stripped_resolve scope]

theorem Stat.stripped_resolve (scope : List String) : (s : Stat) →
    (s.resolve scope).1.stripped .binary = s.stripped .binary
  | .label _ => rfl
  | .goto _ => rfl
  | .leave => rfl
  | .ret values => by
      simp only [Stat.resolve, Stat.stripped, exprs_stripped_resolve scope values]
  | .choice clauses => by
      simp only [Stat.resolve, Stat.stripped, clauses_stripped_resolve scope clauses]
  | .whileLoop condition body => by
      simp only [Stat.resolve, Stat.stripped, condition.stripped_resolve scope,
        block_stripped_resolve scope body]
  | .block body => by
      simp only [Stat.resolve, Stat.stripped, block_stripped_resolve scope body]
  | .repeatLoop body condition => by
      simp only [Stat.resolve, Stat.stripped, block_stripped_resolve scope body,
        condition.stripped_resolve]
  | .locals vars values => by
      simp only [Stat.resolve, Stat.stripped, exprs_stripped_resolve scope values, List.map_map]
      rfl
  | .assign targets values => by
      simp only [Stat.resolve, Stat.stripped, exprs_stripped_resolve scope targets,
        exprs_stripped_resolve scope values]
  | .call e => by
      simp only [Stat.resolve, Stat.stripped, e.stripped_resolve scope]
  | .function _ name parameters body => by
      simp only [Stat.resolve, Stat.stripped, option_stripped_resolve _ name,
        strippedExprs_declared, block_stripped_resolve _ body]
  | .forRange counter first last step body => by
      simp only [Stat.resolve, Stat.stripped, first.stripped_resolve scope,
        last.stripped_resolve scope, option_stripped_resolve scope step,
        block_stripped_resolve _ body]
      rfl
  | .forEach vars iterators body => by
      simp only [Stat.resolve, Stat.stripped, exprs_stripped_resolve scope iterators,
        block_stripped_resolve _ body, List.map_map]
      rfl

theorem Clause.stripped_resolve (scope : List String) : (c : Clause) →
    (c.resolve scope).stripped .binary = c.stripped .binary
  | .first condition body => by
      simp only [Clause.resolve, Clause.stripped, condition.stripped_resolve scope,
        block_stripped_resolve scope body]
  | .next condition body => by
      simp only [Clause.resolve, Clause.stripped, condition.stripped_resolve scope,
        block_stripped_resolve scope body]
  | .otherwise body => by
      simp only [Clause.resolve, Clause.stripped, block_stripped_resolve scope body]

theorem option_stripped_resolve (scope : List String) : (o : Option Expr) →
    strippedOption .binary (resolveOption scope o) = strippedOption .binary o
  | none => rfl
  | some e => by
      simp only [resolveOption, strippedOption, e.stripped_resolve scope]

theorem exprs_stripped_resolve (scope : List String) : (es : List Expr) →
    strippedExprs .binary (resolveExprs scope es) = strippedExprs .binary es
  | [] => rfl
  | e :: rest => by
      simp only [resolveExprs, strippedExprs, e.stripped_resolve scope,
        exprs_stripped_resolve scope rest]

theorem fields_stripped_resolve (scope : List String) : (fs : List Field) →
    strippedFields .binary (resolveFields scope fs) = strippedFields .binary fs
  | [] => rfl
  | f :: rest => by
      simp only [resolveFields, strippedFields, f.stripped_resolve scope,
        fields_stripped_resolve scope rest]

theorem block_stripped_resolve (scope : List String) : (body : List Stat) →
    strippedBlock .binary (resolveBlock scope body).1 = strippedBlock .binary body
  | [] => rfl
  | s :: rest => by
      simp only [resolveBlock, strippedBlock, s.stripped_resolve scope,
        block_stripped_resolve _ rest]

theorem clauses_stripped_resolve (scope : List String) : (clauses : List Clause) →
    strippedClauses .binary (resolveClauses scope clauses) = strippedClauses .binary clauses
  | [] => rfl
  | c :: rest => by
      simp only [resolveClauses, strippedClauses, c.stripped_resolve scope,
        clauses_stripped_resolve scope rest]

end

theorem block_resolve_unlined (scope : List String) (body : List Stat) :
    resolveBlock scope (unlinedBlock body) =
      (unlinedBlock (resolveBlock scope body).1, (resolveBlock scope body).2) := by
  rw [unlinedBlock_eq, unlinedBlock_eq, block_resolve_relined]

/-!
## Scopes after a statement
-/

def Stat.added : Stat → List String
  | .locals vars _ => vars.map (·.name.text)
  | .function isLocal name _ _ => if isLocal then localFunctionNames name else []
  | _ => []

theorem resolve_scope (scope : List String) (s : Stat) :
    (s.resolve scope).2 = s.added ++ scope := by
  cases s with
  | function isLocal name parameters body => cases isLocal <;> rfl
  | _ => rfl

/-!
## Settled marks
-/

/-- A block whose marks are the ones that its names get in a scope. -/
def Settled (scope : List String) (body : List Stat) : Prop :=
  (resolveBlock scope (strippedBlock .binary body)).1 = unlinedBlock body

def Unmarked (body : List Stat) : Prop :=
  strippedBlock .binary body = unlinedBlock body

theorem settled_resolve {scope : List String} {body : List Stat} (h : Unmarked body) :
    Settled scope (resolveBlock scope body).1 := by
  unfold Settled
  rw [block_stripped_resolve, h, block_resolve_unlined]

theorem unlined_eq_of_settled {scope : List String} {first second : List Stat}
    (hfirst : Settled scope first) (hsecond : Settled scope second)
    (h : strippedBlock .binary first = strippedBlock .binary second) :
    unlinedBlock first = unlinedBlock second := by
  rw [← hfirst, ← hsecond, h]

end Lua
end LuaBundle
