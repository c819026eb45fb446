import LuaBundle.Proofs.Bundle.Stops
import LuaBundle.Proofs.Tree.Stripped

/-!
# Flat trees

A sum to the right of a sum, and a product or quotient to the right of a product, are
printed without parentheses, so their layout is read in other groups.  In a tree without
such operands the groups are those of the tree.
-/

namespace LuaBundle
namespace Lua

/-- Whether an operation is printed so that its right operand is read in other groups: a sum
or difference in a sum, a product or quotient in a product. -/
def Expr.Regroups : Expr → Prop
  | .binary .add _ (.binary op _ _) => op = .add ∨ op = .sub
  | .binary .mul _ (.binary op _ _) => op = .mul ∨ op = .div
  | _ => False

def Expr.regroups : Expr → Bool
  | .binary .add _ (.binary op _ _) => op == .add || op == .sub
  | .binary .mul _ (.binary op _ _) => op == .mul || op == .div
  | _ => false

theorem regroups_iff (e : Expr) : e.regroups = true ↔ e.Regroups := by
  unfold Expr.regroups Expr.Regroups
  split <;> simp

instance : DecidablePred Expr.Regroups :=
  fun e => decidable_of_iff _ (regroups_iff e)

def Flat (body : List Stat) : Prop :=
  ∀ e ∈ blockNodes body, ¬e.Regroups

instance : DecidablePred Flat :=
  fun body => inferInstanceAs (Decidable (∀ e ∈ blockNodes body, ¬e.Regroups))

theorem regrouped_of_flat {op : BinaryOp} {left left' right : Expr}
    (h : ¬(Expr.binary op left right).Regroups) :
    regrouped op left' (right.stripped .binary) = .binary op left' (right.stripped .binary) := by
  cases right with
  | binary inner first second =>
      have hne : ¬(inner.precedence = op.precedence ∧ regroups op inner = true) := by
        rintro ⟨hprecedence, hregroups⟩
        apply h
        rcases regroups_cases hregroups with rfl | ⟨rfl, rfl | rfl⟩
        · cases inner <;> simp [BinaryOp.precedence] at hprecedence
          · exact Or.inl rfl
          · exact Or.inr rfl
        · exact Or.inl rfl
        · exact Or.inr rfl
      rw [Expr.stripped, regrouped, if_neg hne]
  | _ => rfl

mutual

theorem Expr.regrouped_of_flat : (e : Expr) → (∀ node ∈ e.nodes, ¬node.Regroups) →
    e.stripped regrouped = e.stripped .binary
  | .name _, _ | .string _, _ | .number .., _ | .boolean _, _ | .nil, _ | .vararg .., _ => rfl
  | .function parameters body, h => by
      simp only [Expr.nodes, List.forall_mem_cons, List.cons_append, List.forall_mem_append] at h
      simp only [Expr.stripped, exprs_regrouped_of_flat parameters h.2.1,
        block_regrouped_of_flat body h.2.2]
  | .table fields, h => by
      simp only [Expr.nodes, List.forall_mem_cons] at h
      simp only [Expr.stripped, fields_regrouped_of_flat fields h.2]
  | .binary op left right, h => by
      simp only [Expr.nodes, List.cons_append, List.forall_mem_cons, List.forall_mem_append] at h
      rw [Expr.stripped, left.regrouped_of_flat h.2.1, right.regrouped_of_flat h.2.2,
        Lua.regrouped_of_flat h.1, Expr.stripped]
  | .unary _ operand, h => by
      simp only [Expr.nodes, List.forall_mem_cons] at h
      simp only [Expr.stripped, operand.regrouped_of_flat h.2]
  | .member base _ _, h => by
      simp only [Expr.nodes, List.forall_mem_cons] at h
      simp only [Expr.stripped, base.regrouped_of_flat h.2]
  | .index base key, h => by
      simp only [Expr.nodes, List.cons_append, List.forall_mem_cons, List.forall_mem_append] at h
      simp only [Expr.stripped, base.regrouped_of_flat h.2.1, key.regrouped_of_flat h.2.2]
  | .call base arguments _ _, h => by
      simp only [Expr.nodes, List.cons_append, List.forall_mem_cons, List.forall_mem_append] at h
      simp only [Expr.stripped, base.regrouped_of_flat h.2.1,
        arguments.regrouped_of_flat h.2.2]

theorem Args.regrouped_of_flat : (arguments : Args) →
    (∀ node ∈ arguments.nodes, ¬node.Regroups) →
    arguments.stripped regrouped = arguments.stripped .binary
  | .list arguments, h => by
      simp only [Args.stripped, exprs_regrouped_of_flat arguments h]
  | .table fields, h => by
      simp only [Args.stripped, fields_regrouped_of_flat fields h]
  | .string _, _ => rfl

theorem Field.regrouped_of_flat : (f : Field) → (∀ node ∈ f.nodes, ¬node.Regroups) →
    f.stripped regrouped = f.stripped .binary
  | .keyed key value, h => by
      simp only [Field.nodes, List.forall_mem_append] at h
      simp only [Field.stripped, key.regrouped_of_flat h.1, value.regrouped_of_flat h.2]
  | .named _ value, h => by
      simp only [Field.stripped, value.regrouped_of_flat h]
  | .positional value, h => by
      simp only [Field.stripped, value.regrouped_of_flat h]

theorem Stat.regrouped_of_flat : (s : Stat) → (∀ node ∈ s.nodes, ¬node.Regroups) →
    s.stripped regrouped = s.stripped .binary
  | .label _, _ | .goto _, _ | .leave, _ => rfl
  | .ret values, h => by
      simp only [Stat.stripped, exprs_regrouped_of_flat values h]
  | .choice clauses, h => by
      simp only [Stat.stripped, clauses_regrouped_of_flat clauses h]
  | .whileLoop condition body, h => by
      simp only [Stat.nodes, List.forall_mem_append] at h
      simp only [Stat.stripped, condition.regrouped_of_flat h.1, block_regrouped_of_flat body h.2]
  | .block body, h => by
      simp only [Stat.stripped, block_regrouped_of_flat body h]
  | .repeatLoop body condition, h => by
      simp only [Stat.nodes, List.forall_mem_append] at h
      simp only [Stat.stripped, block_regrouped_of_flat body h.1, condition.regrouped_of_flat h.2]
  | .locals _ values, h => by
      simp only [Stat.stripped, exprs_regrouped_of_flat values h]
  | .assign targets values, h => by
      simp only [Stat.nodes, List.forall_mem_append] at h
      simp only [Stat.stripped, exprs_regrouped_of_flat targets h.1,
        exprs_regrouped_of_flat values h.2]
  | .call e, h => by
      simp only [Stat.stripped, e.regrouped_of_flat h]
  | .function _ name parameters body, h => by
      simp only [Stat.nodes, List.forall_mem_append] at h
      simp only [Stat.stripped, option_regrouped_of_flat name h.1.1,
        exprs_regrouped_of_flat parameters h.1.2, block_regrouped_of_flat body h.2]
  | .forRange _ first last step body, h => by
      simp only [Stat.nodes, List.forall_mem_append] at h
      simp only [Stat.stripped, first.regrouped_of_flat h.1.1.1, last.regrouped_of_flat h.1.1.2,
        option_regrouped_of_flat step h.1.2, block_regrouped_of_flat body h.2]
  | .forEach _ iterators body, h => by
      simp only [Stat.nodes, List.forall_mem_append] at h
      simp only [Stat.stripped, exprs_regrouped_of_flat iterators h.1,
        block_regrouped_of_flat body h.2]

theorem Clause.regrouped_of_flat : (c : Clause) → (∀ node ∈ c.nodes, ¬node.Regroups) →
    c.stripped regrouped = c.stripped .binary
  | .first condition body, h => by
      simp only [Clause.nodes, List.forall_mem_append] at h
      simp only [Clause.stripped, condition.regrouped_of_flat h.1,
        block_regrouped_of_flat body h.2]
  | .next condition body, h => by
      simp only [Clause.nodes, List.forall_mem_append] at h
      simp only [Clause.stripped, condition.regrouped_of_flat h.1,
        block_regrouped_of_flat body h.2]
  | .otherwise body, h => by
      simp only [Clause.stripped, block_regrouped_of_flat body h]

theorem option_regrouped_of_flat : (o : Option Expr) → (∀ node ∈ optionNodes o, ¬node.Regroups) →
    strippedOption regrouped o = strippedOption .binary o
  | none, _ => rfl
  | some e, h => by
      simp only [strippedOption, e.regrouped_of_flat h]

theorem exprs_regrouped_of_flat : (es : List Expr) → (∀ node ∈ exprNodes es, ¬node.Regroups) →
    strippedExprs regrouped es = strippedExprs .binary es
  | [], _ => rfl
  | e :: rest, h => by
      simp only [exprNodes, List.forall_mem_append] at h
      simp only [strippedExprs, e.regrouped_of_flat h.1, exprs_regrouped_of_flat rest h.2]

theorem fields_regrouped_of_flat : (fs : List Field) →
    (∀ node ∈ fieldNodes fs, ¬node.Regroups) →
    strippedFields regrouped fs = strippedFields .binary fs
  | [], _ => rfl
  | f :: rest, h => by
      simp only [fieldNodes, List.forall_mem_append] at h
      simp only [strippedFields, f.regrouped_of_flat h.1, fields_regrouped_of_flat rest h.2]

theorem block_regrouped_of_flat : (body : List Stat) →
    (∀ node ∈ blockNodes body, ¬node.Regroups) →
    strippedBlock regrouped body = strippedBlock .binary body
  | [], _ => rfl
  | s :: rest, h => by
      simp only [blockNodes, List.forall_mem_append] at h
      simp only [strippedBlock, s.regrouped_of_flat h.1, block_regrouped_of_flat rest h.2]

theorem clauses_regrouped_of_flat : (clauses : List Clause) →
    (∀ node ∈ clauseNodes clauses, ¬node.Regroups) →
    strippedClauses regrouped clauses = strippedClauses .binary clauses
  | [], _ => rfl
  | c :: rest, h => by
      simp only [clauseNodes, List.forall_mem_append] at h
      simp only [strippedClauses, c.regrouped_of_flat h.1, clauses_regrouped_of_flat rest h.2]

end

end Lua
end LuaBundle
