import LuaBundle.Proofs.Tree.Flat
import Mathlib.Algebra.Field.Rat
import Mathlib.Tactic.Ring

/-!
# Rational values

The value of a tree in the arithmetic of rational numbers, where division is exact.  Putting
the operations of a sum together anew keeps it, and so does a product as long as no rounded
quotient and no remainder moves into the reach of the new factor.
-/

namespace LuaBundle
namespace Lua

/-!
## Values
-/

/-- The numbers that names and numerals stand for. -/
structure Reading where
  name : String → ℚ
  numeral : String → ℚ

/-- The value of an operation on rationals, none for a zero divisor and for an operator that
is not one of arithmetic. -/
def BinaryOp.onRationals : BinaryOp → ℚ → ℚ → Option ℚ
  | .add, x, y => some (x + y)
  | .sub, x, y => some (x - y)
  | .mul, x, y => some (x * y)
  | .div, x, y => if y = 0 then none else some (x / y)
  | .floorDiv, x, y => if y = 0 then none else some (x / y).floor
  | .mod, x, y => if y = 0 then none else some (x - (x / y).floor * y)
  | _, _, _ => none

/-- The value of an expression, none where an operation has none and for what is not
arithmetic. -/
def Expr.rational (reading : Reading) : Expr → Option ℚ
  | .name n => some (reading.name n.text)
  | .number (.written raw) _ => some (reading.numeral raw)
  | .unary .minus operand => (operand.rational reading).map fun x => -x
  | .binary op left right =>
      (left.rational reading).bind fun x =>
        (right.rational reading).bind fun y => op.onRationals x y
  | _ => none

theorem rational_stripped (reading : Reading) : (e : Expr) →
    (e.stripped .binary).rational reading = e.rational reading
  | .name _ => rfl
  | .number (.written _) _ => rfl
  | .number (.value _) _ => rfl
  | .unary op operand => by
      have hoperand := rational_stripped reading operand
      cases op with
      | minus => rw [Expr.stripped, Expr.rational, hoperand, Expr.rational]
      | _ => rfl
  | .binary op left right => by
      rw [Expr.stripped, Expr.rational, rational_stripped reading left,
        rational_stripped reading right, Expr.rational]
  | .string _ | .boolean _ | .nil | .vararg .. | .function .. | .table _ | .member ..
  | .index .. | .call .. => rfl

/-!
## Operands joined to a chain
-/

/-- Whether a rounded quotient or a remainder stands at the left edge of a product or
quotient. -/
def Expr.rounds : Expr → Bool
  | .binary .floorDiv _ _ | .binary .mod _ _ => true
  | .binary .mul first _ | .binary .div first _ => first.rounds
  | _ => false

/-- Whether an operation is a product whose right operand is read in other groups, with a
rounded quotient or a remainder at its left edge. -/
def Expr.misgroups : Expr → Bool
  | .binary .mul _ (.binary .mul first _) | .binary .mul _ (.binary .div first _) => first.rounds
  | _ => false

section Attach

variable {reading : Reading}

theorem attach_add_rational (left : Expr) : (right : Expr) →
    (attach .add left right).rational reading = (Expr.binary .add left right).rational reading
  | .binary inner first second => by
      by_cases h : inner.precedence = BinaryOp.add.precedence
      · have hfirst := attach_add_rational left first
        rw [attach, if_pos h, Expr.rational, hfirst]
        simp only [Expr.rational]
        rcases left.rational reading with _ | x
        · rfl
        rcases first.rational reading with _ | y
        · rfl
        rcases second.rational reading with _ | z
        · rfl
        have hinner : inner = .add ∨ inner = .sub := by
          cases inner <;> simp [BinaryOp.precedence] at h ⊢
        rcases hinner with rfl | rfl
        · simp only [Option.bind_some, BinaryOp.onRationals, add_assoc]
        · simp only [Option.bind_some, BinaryOp.onRationals, add_sub_assoc]
      · rw [attach, if_neg h]
  | .name _ | .string _ | .number .. | .boolean _ | .nil | .vararg .. | .function .. | .table _
  | .unary .. | .member .. | .index .. | .call .. => rfl

theorem rounds_of_precedence {e : Expr}
    (h : e.hasPrecedence BinaryOp.mul.precedence = false) : e.rounds = false := by
  cases e with
  | binary op first second =>
      cases op <;> simp [Expr.hasPrecedence, BinaryOp.precedence] at h <;> rfl
  | _ => rfl

theorem exact_of_not_rounds {op : BinaryOp} {first second : Expr}
    (hprecedence : op.precedence = BinaryOp.mul.precedence)
    (h : (Expr.binary op first second).rounds = false) :
    (op = .mul ∨ op = .div) ∧ first.rounds = false := by
  cases op <;> simp [BinaryOp.precedence] at hprecedence
  · exact ⟨Or.inl rfl, h⟩
  · exact ⟨Or.inr rfl, h⟩
  · cases h
  · cases h

theorem attach_mul_rational (left : Expr) : (right : Expr) → right.rounds = false →
    (attach .mul left right).rational reading = (Expr.binary .mul left right).rational reading
  | .binary inner first second, hrounds => by
      by_cases h : inner.precedence = BinaryOp.mul.precedence
      · rcases exact_of_not_rounds h hrounds with ⟨hinner, hfirstRounds⟩
        have hfirst := attach_mul_rational left first hfirstRounds
        rw [attach, if_pos h, Expr.rational, hfirst]
        simp only [Expr.rational]
        rcases left.rational reading with _ | x
        · rfl
        rcases first.rational reading with _ | y
        · rfl
        rcases second.rational reading with _ | z
        · rfl
        rcases hinner with rfl | rfl
        · simp only [Option.bind_some, BinaryOp.onRationals, mul_assoc]
        · simp only [Option.bind_some, BinaryOp.onRationals]
          by_cases hz : z = 0
          · simp [hz]
          · simp [hz, mul_div_assoc]
      · rw [attach, if_neg h]
  | .name _, _ | .string _, _ | .number .., _ | .boolean _, _ | .nil, _ | .vararg .., _
  | .function .., _ | .table _, _ | .unary .., _ | .member .., _ | .index .., _ | .call .., _ =>
      rfl

theorem attach_mul_rounds (left : Expr) : (right : Expr) → right.rounds = false →
    (attach .mul left right).rounds = left.rounds
  | .binary inner first second, hrounds => by
      by_cases h : inner.precedence = BinaryOp.mul.precedence
      · rcases exact_of_not_rounds h hrounds with ⟨hinner, hfirstRounds⟩
        have hfirst := attach_mul_rounds left first hfirstRounds
        rw [attach, if_pos h]
        rcases hinner with rfl | rfl <;> exact hfirst
      · rw [attach, if_neg h]
        rfl
  | .name _, _ | .string _, _ | .number .., _ | .boolean _, _ | .nil, _ | .vararg .., _
  | .function .., _ | .table _, _ | .unary .., _ | .member .., _ | .index .., _ | .call .., _ =>
      rfl

end Attach

/-!
## Trees in the groups of their layout
-/

theorem regrouped_of_ne {op : BinaryOp} {left right : Expr}
    (h : ∀ inner, regroups op inner = false) : regrouped op left right = .binary op left right := by
  cases right with
  | binary inner first second => rw [regrouped, if_neg (by simp [h inner])]
  | _ => rfl

/-- An operation put together in the groups of its layout: the same value and the same left
edge, unless a rounded quotient or a remainder comes under a product. -/
theorem regrouped_keeps (reading : Reading) {op : BinaryOp} (left : Expr) {right : Expr}
    (h : op = .mul → ∀ inner first second, right = .binary inner first second →
      regroups .mul inner = true → right.rounds = false) :
    (regrouped op left right).rational reading = (Expr.binary op left right).rational reading ∧
      (regrouped op left right).rounds = (Expr.binary op left right).rounds := by
  unfold regrouped
  split
  · rename_i inner first second
    split
    · rename_i hjoins
      rcases regroups_cases hjoins.2 with rfl | ⟨rfl, _⟩
      · rcases attach_isBinary .add left (.binary inner first second) with
          ⟨top, l, r, htop, hprecedence⟩
        have hsum : (attach .add left (.binary inner first second)).rounds = false := by
          apply rounds_of_precedence
          rw [htop, Expr.hasPrecedence, hprecedence]
          rfl
        exact ⟨attach_add_rational left _, hsum⟩
      · have hexact := h rfl inner first second rfl hjoins.2
        exact ⟨attach_mul_rational left _ hexact, attach_mul_rounds left _ hexact⟩
    · exact ⟨rfl, rfl⟩
  · exact ⟨rfl, rfl⟩

/-- A tree without misgrouped products keeps its value in the groups of its layout. -/
theorem Expr.regrouped_rational (reading : Reading) : (e : Expr) →
    (∀ node ∈ e.nodes, node.misgroups = false) →
    (e.stripped regrouped).rational reading = e.rational reading ∧
      (e.stripped regrouped).rounds = e.rounds
  | .name _, _ | .number (.written _) _, _ | .number (.value _) _, _ => ⟨rfl, rfl⟩
  | .unary op operand, h => by
      simp only [Expr.nodes, List.forall_mem_cons] at h
      have hoperand := (operand.regrouped_rational reading h.2).1
      cases op with
      | minus =>
          rw [Expr.stripped, Expr.rational, hoperand, Expr.rational]
          exact ⟨rfl, rfl⟩
      | _ => exact ⟨rfl, rfl⟩
  | .binary op left right, h => by
      simp only [Expr.nodes, List.cons_append, List.forall_mem_cons, List.forall_mem_append] at h
      rcases left.regrouped_rational reading h.2.1 with ⟨hleft, hleftEdge⟩
      rcases right.regrouped_rational reading h.2.2 with ⟨hright, hrightEdge⟩
      have hexact : op = .mul → ∀ inner first second,
          right.stripped regrouped = .binary inner first second →
          Lua.regroups .mul inner = true → (right.stripped regrouped).rounds = false := by
        rintro rfl inner first second heq hregroups
        have hnode := h.1
        rw [hrightEdge]
        cases right with
        | binary op' a b =>
            cases op' with
            | mul => exact hnode
            | div => exact hnode
            | floorDiv =>
                rw [Expr.stripped, regrouped_of_ne fun _ => rfl] at heq
                cases heq
                cases hregroups
            | mod =>
                rw [Expr.stripped, regrouped_of_ne fun _ => rfl] at heq
                cases heq
                cases hregroups
            | _ => rfl
        | _ => rfl
      rcases regrouped_keeps reading (left.stripped regrouped) hexact with ⟨hvalue, hedge⟩
      rw [Expr.stripped, hvalue, hedge]
      constructor
      case left => rw [Expr.rational, hleft, hright, Expr.rational]
      case right => cases op <;> simp only [Expr.rounds, hleftEdge]
  | .string _, _ | .boolean _, _ | .nil, _ | .vararg .., _ | .function .., _ | .table _, _
  | .member .., _ | .index .., _ | .call .., _ => ⟨rfl, rfl⟩

end Lua
end LuaBundle
