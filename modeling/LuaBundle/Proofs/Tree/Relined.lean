import LuaBundle.Lua.Scope
import LuaBundle.Proofs.Tree.Unlined

/-!
# Trees with their lines moved

A source that is moved down keeps its tree but for lines, which move with it.  To take the
lines out is to move all of them to one place.
-/

namespace LuaBundle
namespace Lua

def StringLit.relined (move : Nat → Nat) (literal : StringLit) : StringLit :=
  { literal with line := move literal.line }

def Attribute.relined (move : Nat → Nat) (a : Attribute) : Attribute :=
  { a with line := move a.line }

def LocalVar.relined (move : Nat → Nat) (v : LocalVar) : LocalVar :=
  { v with attrib := v.attrib.map (Attribute.relined move) }

mutual

def Expr.relined (move : Nat → Nat) : Expr → Expr
  | .name n => .name n
  | .string literal => .string (literal.relined move)
  | .number numeral line => .number numeral (move line)
  | .boolean value => .boolean value
  | .nil => .nil
  | .vararg inParens line => .vararg inParens (move line)
  | .function parameters body => .function (relinedExprs move parameters) (relinedBlock move body)
  | .table fields => .table (relinedFields move fields)
  | .binary op left right => .binary op (left.relined move) (right.relined move)
  | .unary op operand => .unary op (operand.relined move)
  | .member base indexer n => .member (base.relined move) indexer n
  | .index base key => .index (base.relined move) (key.relined move)
  | .call base arguments inParens line =>
      .call (base.relined move) (arguments.relined move) inParens (move line)

def Args.relined (move : Nat → Nat) : Args → Args
  | .list arguments => .list (relinedExprs move arguments)
  | .table fields => .table (relinedFields move fields)
  | .string literal => .string (literal.relined move)

def Field.relined (move : Nat → Nat) : Field → Field
  | .keyed key value => .keyed (key.relined move) (value.relined move)
  | .named n value => .named n (value.relined move)
  | .positional value => .positional (value.relined move)

def Stat.relined (move : Nat → Nat) : Stat → Stat
  | .label n => .label n
  | .goto n => .goto n
  | .leave => .leave
  | .ret values => .ret (relinedExprs move values)
  | .choice clauses => .choice (relinedClauses move clauses)
  | .whileLoop condition body => .whileLoop (condition.relined move) (relinedBlock move body)
  | .block body => .block (relinedBlock move body)
  | .repeatLoop body condition => .repeatLoop (relinedBlock move body) (condition.relined move)
  | .locals vars values => .locals (vars.map (LocalVar.relined move)) (relinedExprs move values)
  | .assign targets values => .assign (relinedExprs move targets) (relinedExprs move values)
  | .call e => .call (e.relined move)
  | .function isLocal name parameters body =>
      .function isLocal (relinedOption move name) (relinedExprs move parameters)
        (relinedBlock move body)
  | .forRange counter first last step body =>
      .forRange counter (first.relined move) (last.relined move) (relinedOption move step)
        (relinedBlock move body)
  | .forEach vars iterators body =>
      .forEach vars (relinedExprs move iterators) (relinedBlock move body)

def Clause.relined (move : Nat → Nat) : Clause → Clause
  | .first condition body => .first (condition.relined move) (relinedBlock move body)
  | .next condition body => .next (condition.relined move) (relinedBlock move body)
  | .otherwise body => .otherwise (relinedBlock move body)

def relinedOption (move : Nat → Nat) : Option Expr → Option Expr
  | none => none
  | some e => some (e.relined move)

def relinedExprs (move : Nat → Nat) : List Expr → List Expr
  | [] => []
  | e :: rest => e.relined move :: relinedExprs move rest

def relinedFields (move : Nat → Nat) : List Field → List Field
  | [] => []
  | f :: rest => f.relined move :: relinedFields move rest

def relinedBlock (move : Nat → Nat) : List Stat → List Stat
  | [] => []
  | s :: rest => s.relined move :: relinedBlock move rest

def relinedClauses (move : Nat → Nat) : List Clause → List Clause
  | [] => []
  | c :: rest => c.relined move :: relinedClauses move rest

end

/-!
## Lines taken out
-/

mutual

theorem Expr.unlined_eq : (e : Expr) → e.unlined = e.relined fun _ => 0
  | .name _ => rfl
  | .string _ => rfl
  | .number .. => rfl
  | .boolean _ => rfl
  | .nil => rfl
  | .vararg .. => rfl
  | .function parameters body => by
      rw [Expr.unlined, Expr.relined, unlinedExprs_eq parameters, unlinedBlock_eq body]
  | .table fields => by rw [Expr.unlined, Expr.relined, unlinedFields_eq fields]
  | .binary _ left right => by
      rw [Expr.unlined, Expr.relined, left.unlined_eq, right.unlined_eq]
  | .unary _ operand => by rw [Expr.unlined, Expr.relined, operand.unlined_eq]
  | .member base _ _ => by rw [Expr.unlined, Expr.relined, base.unlined_eq]
  | .index base key => by rw [Expr.unlined, Expr.relined, base.unlined_eq, key.unlined_eq]
  | .call base arguments _ _ => by
      rw [Expr.unlined, Expr.relined, base.unlined_eq, arguments.unlined_eq]

theorem Args.unlined_eq : (arguments : Args) → arguments.unlined = arguments.relined fun _ => 0
  | .list arguments => by rw [Args.unlined, Args.relined, unlinedExprs_eq arguments]
  | .table fields => by rw [Args.unlined, Args.relined, unlinedFields_eq fields]
  | .string _ => rfl

theorem Field.unlined_eq : (f : Field) → f.unlined = f.relined fun _ => 0
  | .keyed key value => by rw [Field.unlined, Field.relined, key.unlined_eq, value.unlined_eq]
  | .named _ value => by rw [Field.unlined, Field.relined, value.unlined_eq]
  | .positional value => by rw [Field.unlined, Field.relined, value.unlined_eq]

theorem Stat.unlined_eq : (s : Stat) → s.unlined = s.relined fun _ => 0
  | .label _ => rfl
  | .goto _ => rfl
  | .leave => rfl
  | .ret values => by rw [Stat.unlined, Stat.relined, unlinedExprs_eq values]
  | .choice clauses => by rw [Stat.unlined, Stat.relined, unlinedClauses_eq clauses]
  | .whileLoop condition body => by
      rw [Stat.unlined, Stat.relined, condition.unlined_eq, unlinedBlock_eq body]
  | .block body => by rw [Stat.unlined, Stat.relined, unlinedBlock_eq body]
  | .repeatLoop body condition => by
      rw [Stat.unlined, Stat.relined, condition.unlined_eq, unlinedBlock_eq body]
  | .locals _ values => by
      rw [Stat.unlined, Stat.relined, unlinedExprs_eq values]
      rfl
  | .assign targets values => by
      rw [Stat.unlined, Stat.relined, unlinedExprs_eq targets, unlinedExprs_eq values]
  | .call e => by rw [Stat.unlined, Stat.relined, e.unlined_eq]
  | .function _ name parameters body => by
      rw [Stat.unlined, Stat.relined, unlinedOption_eq name, unlinedExprs_eq parameters,
        unlinedBlock_eq body]
  | .forRange _ first last step body => by
      rw [Stat.unlined, Stat.relined, first.unlined_eq, last.unlined_eq, unlinedOption_eq step,
        unlinedBlock_eq body]
  | .forEach _ iterators body => by
      rw [Stat.unlined, Stat.relined, unlinedExprs_eq iterators, unlinedBlock_eq body]

theorem Clause.unlined_eq : (c : Clause) → c.unlined = c.relined fun _ => 0
  | .first condition body => by
      rw [Clause.unlined, Clause.relined, condition.unlined_eq, unlinedBlock_eq body]
  | .next condition body => by
      rw [Clause.unlined, Clause.relined, condition.unlined_eq, unlinedBlock_eq body]
  | .otherwise body => by rw [Clause.unlined, Clause.relined, unlinedBlock_eq body]

theorem unlinedOption_eq : (o : Option Expr) → unlinedOption o = relinedOption (fun _ => 0) o
  | none => rfl
  | some e => by rw [unlinedOption, relinedOption, e.unlined_eq]

theorem unlinedExprs_eq : (es : List Expr) → unlinedExprs es = relinedExprs (fun _ => 0) es
  | [] => rfl
  | e :: rest => by rw [unlinedExprs, relinedExprs, e.unlined_eq, unlinedExprs_eq rest]

theorem unlinedFields_eq : (fs : List Field) → unlinedFields fs = relinedFields (fun _ => 0) fs
  | [] => rfl
  | f :: rest => by rw [unlinedFields, relinedFields, f.unlined_eq, unlinedFields_eq rest]

theorem unlinedBlock_eq : (body : List Stat) → unlinedBlock body = relinedBlock (fun _ => 0) body
  | [] => rfl
  | s :: rest => by rw [unlinedBlock, relinedBlock, s.unlined_eq, unlinedBlock_eq rest]

theorem unlinedClauses_eq : (clauses : List Clause) →
    unlinedClauses clauses = relinedClauses (fun _ => 0) clauses
  | [] => rfl
  | c :: rest => by rw [unlinedClauses, relinedClauses, c.unlined_eq, unlinedClauses_eq rest]

end

/-!
## Marks do not depend on lines
-/

section Marks

variable (move : Nat → Nat)

theorem relinedExprs_declared (parameters : List Expr) :
    relinedExprs move (parameters.map Expr.declared) =
      (relinedExprs move parameters).map Expr.declared := by
  induction parameters with
  | nil => rfl
  | cons e rest ih =>
      rw [List.map_cons, relinedExprs, relinedExprs, ih, List.map_cons]
      cases e <;> rfl

theorem parameterNames_relined (parameters : List Expr) :
    parameterNames (relinedExprs move parameters) = parameterNames parameters := by
  induction parameters with
  | nil => rfl
  | cons e rest ih =>
      unfold parameterNames at ih ⊢
      cases e <;> simp [relinedExprs, Expr.relined, ih]

theorem functionScope_relined (scope : List String) (name : Option Expr) (parameters : List Expr) :
    functionScope scope (relinedOption move name) (relinedExprs move parameters) =
      functionScope scope name parameters := by
  have hreceiver : receiver (relinedOption move name) = receiver name := by
    cases name with
    | none => rfl
    | some e =>
        cases e with
        | member base indexer n => cases indexer <;> rfl
        | _ => rfl
  rw [functionScope, functionScope, parameterNames_relined, hreceiver]

theorem localFunctionNames_relined (name : Option Expr) :
    localFunctionNames (relinedOption move name) = localFunctionNames name := by
  cases name with
  | none => rfl
  | some e => cases e <;> rfl

mutual

theorem Expr.resolve_relined (scope : List String) : (e : Expr) →
    (e.relined move).resolve scope = (e.resolve scope).relined move
  | .name _ => rfl
  | .string _ => rfl
  | .number .. => rfl
  | .boolean _ => rfl
  | .nil => rfl
  | .vararg .. => rfl
  | .function parameters body => by
      have hscope := functionScope_relined move scope none parameters
      simp only [relinedOption] at hscope
      simp only [Expr.resolve, Expr.relined, relinedExprs_declared, hscope,
        block_resolve_relined _ body]
  | .table fields => by
      simp only [Expr.resolve, Expr.relined, fields_resolve_relined scope fields]
  | .binary _ left right => by
      simp only [Expr.resolve, Expr.relined, left.resolve_relined scope,
        right.resolve_relined scope]
  | .unary _ operand => by
      simp only [Expr.resolve, Expr.relined, operand.resolve_relined scope]
  | .member base _ _ => by
      simp only [Expr.resolve, Expr.relined, base.resolve_relined scope]
  | .index base key => by
      simp only [Expr.resolve, Expr.relined, base.resolve_relined scope,
        key.resolve_relined scope]
  | .call base arguments _ _ => by
      simp only [Expr.resolve, Expr.relined, base.resolve_relined scope,
        arguments.resolve_relined scope]

theorem Args.resolve_relined (scope : List String) : (arguments : Args) →
    (arguments.relined move).resolve scope = (arguments.resolve scope).relined move
  | .list arguments => by
      simp only [Args.resolve, Args.relined, exprs_resolve_relined scope arguments]
  | .table fields => by
      simp only [Args.resolve, Args.relined, fields_resolve_relined scope fields]
  | .string _ => rfl

theorem Field.resolve_relined (scope : List String) : (f : Field) →
    (f.relined move).resolve scope = (f.resolve scope).relined move
  | .keyed key value => by
      simp only [Field.resolve, Field.relined, key.resolve_relined scope,
        value.resolve_relined scope]
  | .named _ value => by
      simp only [Field.resolve, Field.relined, value.resolve_relined scope]
  | .positional value => by
      simp only [Field.resolve, Field.relined, value.resolve_relined scope]

theorem Stat.resolve_relined (scope : List String) : (s : Stat) →
    (s.relined move).resolve scope = ((s.resolve scope).1.relined move, (s.resolve scope).2)
  | .label _ => rfl
  | .goto _ => rfl
  | .leave => rfl
  | .ret values => by
      simp only [Stat.resolve, Stat.relined, exprs_resolve_relined scope values]
  | .choice clauses => by
      simp only [Stat.resolve, Stat.relined, clauses_resolve_relined scope clauses]
  | .whileLoop condition body => by
      simp only [Stat.resolve, Stat.relined, condition.resolve_relined scope,
        block_resolve_relined scope body]
  | .block body => by
      simp only [Stat.resolve, Stat.relined, block_resolve_relined scope body]
  | .repeatLoop body condition => by
      simp only [Stat.resolve, Stat.relined, block_resolve_relined scope body,
        condition.resolve_relined]
  | .locals vars values => by
      simp only [Stat.resolve, Stat.relined, exprs_resolve_relined scope values, List.map_map]
      rfl
  | .assign targets values => by
      simp only [Stat.resolve, Stat.relined, exprs_resolve_relined scope targets,
        exprs_resolve_relined scope values]
  | .call e => by
      simp only [Stat.resolve, Stat.relined, e.resolve_relined scope]
  | .function isLocal name parameters body => by
      simp only [Stat.resolve, Stat.relined, option_resolve_relined _ name,
        relinedExprs_declared, functionScope_relined, localFunctionNames_relined,
        block_resolve_relined _ body]
  | .forRange counter first last step body => by
      simp only [Stat.resolve, Stat.relined, first.resolve_relined scope,
        last.resolve_relined scope, option_resolve_relined scope step,
        block_resolve_relined _ body]
  | .forEach vars iterators body => by
      simp only [Stat.resolve, Stat.relined, exprs_resolve_relined scope iterators,
        block_resolve_relined _ body]

theorem Clause.resolve_relined (scope : List String) : (c : Clause) →
    (c.relined move).resolve scope = (c.resolve scope).relined move
  | .first condition body => by
      simp only [Clause.resolve, Clause.relined, condition.resolve_relined scope,
        block_resolve_relined scope body]
  | .next condition body => by
      simp only [Clause.resolve, Clause.relined, condition.resolve_relined scope,
        block_resolve_relined scope body]
  | .otherwise body => by
      simp only [Clause.resolve, Clause.relined, block_resolve_relined scope body]

theorem option_resolve_relined (scope : List String) : (o : Option Expr) →
    resolveOption scope (relinedOption move o) = relinedOption move (resolveOption scope o)
  | none => rfl
  | some e => by
      simp only [resolveOption, relinedOption, e.resolve_relined scope]

theorem exprs_resolve_relined (scope : List String) : (es : List Expr) →
    resolveExprs scope (relinedExprs move es) = relinedExprs move (resolveExprs scope es)
  | [] => rfl
  | e :: rest => by
      simp only [resolveExprs, relinedExprs, e.resolve_relined scope,
        exprs_resolve_relined scope rest]

theorem fields_resolve_relined (scope : List String) : (fs : List Field) →
    resolveFields scope (relinedFields move fs) = relinedFields move (resolveFields scope fs)
  | [] => rfl
  | f :: rest => by
      simp only [resolveFields, relinedFields, f.resolve_relined scope,
        fields_resolve_relined scope rest]

theorem block_resolve_relined (scope : List String) : (body : List Stat) →
    resolveBlock scope (relinedBlock move body) =
      (relinedBlock move (resolveBlock scope body).1, (resolveBlock scope body).2)
  | [] => rfl
  | s :: rest => by
      simp only [resolveBlock, relinedBlock, s.resolve_relined scope,
        block_resolve_relined _ rest]

theorem clauses_resolve_relined (scope : List String) : (clauses : List Clause) →
    resolveClauses scope (relinedClauses move clauses) =
      relinedClauses move (resolveClauses scope clauses)
  | [] => rfl
  | c :: rest => by
      simp only [resolveClauses, relinedClauses, c.resolve_relined scope,
        clauses_resolve_relined scope rest]

end

end Marks

end Lua
end LuaBundle
