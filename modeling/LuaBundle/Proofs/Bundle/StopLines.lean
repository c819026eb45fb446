import LuaBundle.Proofs.Bundle.Stops
import LuaBundle.Proofs.Tree.Unlined

/-!
# Stops without lines

Where a walk stops does not depend on the lines in a tree.
-/

namespace LuaBundle

def RequireCall.unlined : RequireCall → RequireCall
  | .module name _ => .module name 0
  | .unsupported _ => .unsupported 0

namespace Lua

def WalkStop.unlined : WalkStop → WalkStop
  | .call asked => .call asked.unlined
  | .name n => .name n

theorem isRequire_unlined (e : Expr) : isRequire e.unlined = isRequire e := by
  cases e <;> rfl

theorem requireCall_unlined (base : Expr) (arguments : Args) (inParens : Bool) (line : Nat) :
    requireCall? (.call base.unlined arguments.unlined inParens 0) =
      (requireCall? (.call base arguments inParens line)).map RequireCall.unlined := by
  simp only [requireCall?, isRequire_unlined]
  split
  · cases arguments with
    | list es =>
        match es with
        | [] => rfl
        | [e] => cases e <;> rfl
        | e :: e' :: rest => simp [Args.unlined, unlinedExprs, RequireCall.unlined]
    | table fields => rfl
    | string literal => rfl
  · rfl

mutual

theorem Expr.stops_unlined : (e : Expr) → e.unlined.stops = e.stops.map WalkStop.unlined
  | .name n => rfl
  | .string _ => rfl
  | .number .. => rfl
  | .boolean _ => rfl
  | .nil => rfl
  | .vararg .. => rfl
  | .function parameters body => by
      simp [Expr.unlined, Expr.stops, exprStops_unlined parameters, blockStops_unlined body]
  | .table fields => by
      simp [Expr.unlined, Expr.stops, fieldStops_unlined fields]
  | .binary _ left right => by
      simp [Expr.unlined, Expr.stops, left.stops_unlined, right.stops_unlined]
  | .unary _ operand => by
      simp [Expr.unlined, Expr.stops, operand.stops_unlined]
  | .member base _ n => by
      simp [Expr.unlined, Expr.stops, base.stops_unlined, WalkStop.unlined]
  | .index base key => by
      simp [Expr.unlined, Expr.stops, base.stops_unlined, key.stops_unlined]
  | .call base arguments inParens line => by
      rw [Expr.unlined, Expr.stops, Expr.stops, requireCall_unlined base arguments inParens line]
      cases requireCall? (.call base arguments inParens line) with
      | none => simp [base.stops_unlined, arguments.stops_unlined]
      | some call => simp [WalkStop.unlined]

theorem Args.stops_unlined : (arguments : Args) →
    arguments.unlined.stops = arguments.stops.map WalkStop.unlined
  | .list arguments => by
      simp [Args.unlined, Args.stops, exprStops_unlined arguments]
  | .table fields => by
      simp [Args.unlined, Args.stops, fieldStops_unlined fields]
  | .string _ => rfl

theorem Field.stops_unlined : (f : Field) → f.unlined.stops = f.stops.map WalkStop.unlined
  | .keyed key value => by
      simp [Field.unlined, Field.stops, key.stops_unlined, value.stops_unlined]
  | .named n value => by
      simp [Field.unlined, Field.stops, value.stops_unlined, WalkStop.unlined]
  | .positional value => by
      simp [Field.unlined, Field.stops, value.stops_unlined]

theorem Stat.stops_unlined : (s : Stat) → s.unlined.stops = s.stops.map WalkStop.unlined
  | .label n => rfl
  | .goto n => rfl
  | .leave => rfl
  | .ret values => by
      simp [Stat.unlined, Stat.stops, exprStops_unlined values]
  | .choice clauses => by
      simp [Stat.unlined, Stat.stops, clauseStops_unlined clauses]
  | .whileLoop condition body => by
      simp [Stat.unlined, Stat.stops, condition.stops_unlined, blockStops_unlined body]
  | .block body => by
      simp [Stat.unlined, Stat.stops, blockStops_unlined body]
  | .repeatLoop body condition => by
      simp [Stat.unlined, Stat.stops, condition.stops_unlined, blockStops_unlined body]
  | .locals vars values => by
      simp [Stat.unlined, Stat.stops, exprStops_unlined values, Function.comp_def,
        LocalVar.unlined, WalkStop.unlined]
  | .assign targets values => by
      simp [Stat.unlined, Stat.stops, exprStops_unlined targets, exprStops_unlined values]
  | .call e => by
      simp [Stat.unlined, Stat.stops, e.stops_unlined]
  | .function _ name parameters body => by
      simp [Stat.unlined, Stat.stops, optionStops_unlined name, exprStops_unlined parameters,
        blockStops_unlined body]
  | .forRange counter first last step body => by
      simp [Stat.unlined, Stat.stops, first.stops_unlined, last.stops_unlined,
        optionStops_unlined step, blockStops_unlined body, WalkStop.unlined]
  | .forEach vars iterators body => by
      simp [Stat.unlined, Stat.stops, exprStops_unlined iterators, blockStops_unlined body,
        Function.comp_def, WalkStop.unlined]

theorem Clause.stops_unlined : (c : Clause) → c.unlined.stops = c.stops.map WalkStop.unlined
  | .first condition body => by
      simp [Clause.unlined, Clause.stops, condition.stops_unlined, blockStops_unlined body]
  | .next condition body => by
      simp [Clause.unlined, Clause.stops, condition.stops_unlined, blockStops_unlined body]
  | .otherwise body => by
      simp [Clause.unlined, Clause.stops, blockStops_unlined body]

theorem optionStops_unlined : (e : Option Expr) →
    optionStops (unlinedOption e) = (optionStops e).map WalkStop.unlined
  | none => rfl
  | some e => e.stops_unlined

theorem exprStops_unlined : (es : List Expr) →
    exprStops (unlinedExprs es) = (exprStops es).map WalkStop.unlined
  | [] => rfl
  | e :: rest => by
      rw [unlinedExprs, exprStops, exprStops, e.stops_unlined, exprStops_unlined rest,
        List.map_append]

theorem fieldStops_unlined : (fs : List Field) →
    fieldStops (unlinedFields fs) = (fieldStops fs).map WalkStop.unlined
  | [] => rfl
  | f :: rest => by
      rw [unlinedFields, fieldStops, fieldStops, f.stops_unlined, fieldStops_unlined rest,
        List.map_append]

theorem blockStops_unlined : (body : List Stat) →
    blockStops (unlinedBlock body) = (blockStops body).map WalkStop.unlined
  | [] => rfl
  | s :: rest => by
      rw [unlinedBlock, blockStops, blockStops, s.stops_unlined, blockStops_unlined rest,
        List.map_append]

theorem clauseStops_unlined : (clauses : List Clause) →
    clauseStops (unlinedClauses clauses) = (clauseStops clauses).map WalkStop.unlined
  | [] => rfl
  | c :: rest => by
      rw [unlinedClauses, clauseStops, clauseStops, c.stops_unlined, clauseStops_unlined rest,
        List.map_append]

end

theorem blockStops_append (front back : List Stat) :
    blockStops (front ++ back) = blockStops front ++ blockStops back := by
  induction front with
  | nil => rfl
  | cons s front ih => rw [List.cons_append, blockStops, blockStops, ih, List.append_assoc]

end Lua
end LuaBundle
