import LuaBundle.Proofs.Printing.Returning
import LuaBundle.Proofs.Tree.Rational

/-!
# Printed arithmetic

An arithmetic tree without misgrouped products keeps its value in the numbers that names and
numerals stand for; a product loses it where its right operand has a rounded quotient or a
remainder at its left edge.
-/

namespace LuaBundle
namespace Lua

open Text

/-!
## Arithmetic trees
-/

def BinaryOp.isArithmetic : BinaryOp → Bool
  | .add | .sub | .mul | .div | .floorDiv | .mod => true
  | _ => false

/-- A tree of names, numbers, minus signs and arithmetic operators, whose leaves are written
as names and numbers. -/
def Expr.IsArithmetic (encoding : Encoding) : Expr → Prop
  | .name n => Spelled encoding .name n.text
  | .number (.written raw) _ =>
      Spelled encoding .number raw ∧ (numeralValue? raw.toList).isSome = true
  | .unary op operand => op = .minus ∧ operand.IsArithmetic encoding
  | .binary op left right =>
      op.isArithmetic = true ∧ left.IsArithmetic encoding ∧ right.IsArithmetic encoding
  | _ => False

section Arithmetic

variable {style : Style} {encoding : Encoding}

theorem Expr.IsArithmetic.wellFormed : {e : Expr} → e.IsArithmetic encoding →
    e.WellFormed encoding false
  | .name _, h => h
  | .number (.written _) _, h => h.1
  | .unary _ _, h => h.2.wellFormed
  | .binary _ _ _, h => ⟨h.2.1.wellFormed, h.2.2.wellFormed⟩

theorem Expr.IsArithmetic.faults (rest : Bool) : {e : Expr} → e.IsArithmetic encoding →
    e.faults encoding rest = []
  | .name _, _ => rfl
  | .number (.written raw) line, h => by
      rcases Option.isSome_iff_exists.mp h.2 with ⟨x, hx⟩
      simp only [Expr.faults, Numeral.faults, hx]
  | .unary _ _, h => h.2.faults rest
  | .binary _ _ _, h => by
      rw [Expr.faults, h.2.1.faults rest, h.2.2.faults rest]
      rfl

/-!
## Operands and signs in turn

In printed arithmetic a sign stands between any two words, so that its names may have any
letters in either style.
-/

def Trail.Leads (trail : Trail) : Prop :=
  trail = .clear ∨ trail = .operand

def Trail.Ends (trail : Trail) : Prop :=
  trail.Closed ∨ trail = .letters

theorem Trail.Leads.ready {trail : Trail} (h : trail.Leads) : trail.Ready := by
  rcases h with rfl | rfl <;> exact Trail.noConfusion

theorem Trail.Leads.spread {trail : Trail} (h : trail.Leads) : (trail.spread style).Leads := by
  cases style with
  | pretty => exact Or.inl rfl
  | compact => exact h

theorem Trail.Ends.spread {trail : Trail} (h : trail.Ends) : (trail.spread style).Ends := by
  cases style with
  | pretty => exact Or.inl Trail.closed_clear
  | compact => exact h

theorem Trail.Leads.accepts {trail : Trail} {c : Char} (h : trail.Leads)
    (hplain : ['<', '/', '!'].contains c = false) : trail.accepts style c = true := by
  rcases h with rfl | rfl
  · rfl
  · simp only [Trail.accepts, hplain, Bool.not_false]

theorem Trail.Ends.step_sign {trail : Trail} {sign : String} (htrail : trail.Ends)
    (h : sign ∈ signs) : trail.Step style encoding (.token sign) (.afterSign sign) := by
  refine .sign h fun c hc => ?_
  have hpart : isNamePart c = false := isNamePart_of_sign h c hc
  rcases htrail with hclosed | rfl
  · exact accepts_closed hclosed hpart
  · simp only [Trail.accepts, hpart, Bool.not_false]

/-- Pieces that run on from where an operand of arithmetic may stand to where a sign may. -/
def Runs (style : Style) (encoding : Encoding) (pieces : List Piece) : Prop :=
  ∀ trail : Trail, trail.Leads →
    ∃ last : Trail, last.Ends ∧ trail.Flow style encoding pieces last

theorem runs_enclosed (parens : Bool) {ps : List Piece} (h : Runs style encoding ps) :
    Runs style encoding (enclosed parens ps) := by
  cases parens with
  | false => exact h
  | true =>
      intro trail htrail
      rcases h .clear (Or.inl rfl) with ⟨mid, hmid, hflow⟩
      have hopening : trail.Step style encoding (.token "(") .clear :=
        htrail.ready.step_sign (by decide) (by decide)
      have hclosing : mid.Step style encoding (.token ")") .clear := hmid.step_sign (by decide)
      exact ⟨.clear, Or.inl Trail.closed_clear,
        (Trail.Flow.cons hopening hflow).append (.cons hclosing .nil)⟩

theorem runs_operation {op : BinaryOp} {ps qs : List Piece} (hop : op.isArithmetic = true)
    (hleft : Runs style encoding ps) (hright : Runs style encoding qs) :
    Runs style encoding (ps ++ spacedSign op.sign ++ qs) := by
  have hsign : op.sign ∈ signs ∧ (Trail.afterSign op.sign).Leads := by
    unfold Trail.Leads
    cases op <;> first | decide | cases hop
  intro trail htrail
  rcases hleft trail htrail with ⟨mid, hmid, hfirst⟩
  rcases hright _ hsign.2.spread with ⟨last, hlast, hsecond⟩
  have hspaced : mid.Flow style encoding (spacedSign op.sign)
      ((Trail.afterSign op.sign).spread style) :=
    .cons .gap (.cons (hmid.spread.step_sign hsign.1) (.cons .gap .nil))
  exact ⟨last, hlast, (hfirst.append hspaced).append hsecond⟩

theorem Expr.IsArithmetic.runs (style : Style) (depth : Nat) : {e : Expr} →
    e.IsArithmetic encoding → Runs style encoding (e.pieces style depth)
  | .name _, h => by
      intro trail htrail
      have haccepts : trail.Accepts style _ := fun c hc =>
        htrail.accepts (plain_of_class (by decide) (h.alone.starts c hc))
      exact ⟨.letters, Or.inr rfl, .cons (.letters h haccepts) .nil⟩
  | .number (.written raw) _, h => by
      intro trail htrail
      have haccepts : trail.Accepts style raw := by
        intro c hc
        have hdigit : c.isDigit = true ∨ c = '.' := h.1.alone.starts c hc
        rcases hdigit with hdigit | rfl
        · exact htrail.accepts (plain_of_class (by decide) hdigit)
        · exact htrail.accepts (by decide)
      exact ⟨.word, Or.inl (Or.inr rfl), .cons (.numeral h.1 haccepts) .nil⟩
  | .unary _ operand, ⟨rfl, h⟩ => by
      intro trail htrail
      have hminus : trail.Step style encoding (.token "-") .clear :=
        htrail.ready.step_sign (by decide) (by decide)
      rcases runs_enclosed (operand.inParens || operand.needsParens .operand)
        (h.runs style depth) .clear (Or.inl rfl) with ⟨last, hlast, hflow⟩
      rw [Expr.pieces]
      exact ⟨last, hlast, .cons hminus hflow⟩
  | .binary _ _ _, ⟨hop, hleft, hright⟩ => by
      rw [Expr.pieces]
      exact runs_operation hop (runs_enclosed _ (hleft.runs style depth))
        (runs_enclosed _ (hright.runs style depth))

/-!
## Values

Exact products may be regrouped; products with a rounded operand may not.
-/

theorem Expr.IsArithmetic.print_returning {e : Expr} (he : e.IsArithmetic encoding)
    (style : Style) :
    ∃ c again, parse encoding (returning (e.print style)) = .ok c ∧ c.body = [.ret [again]] ∧
      again.stripped .binary = e.stripped regrouped := by
  rcases runs_enclosed e.inParens (he.runs style 0) .clear (Or.inl rfl) with ⟨_, _, hflow⟩
  rcases (holds_of_flow hflow).reads he.wellFormed (he.faults true) with
    ⟨again, ⟨c, hparse, hc⟩, hstripped⟩
  exact ⟨c, again, hparse, hc, hstripped⟩

/-- Printed arithmetic is read with the same value, if no product is misgrouped: in all
numbers for the names and numerals both values are the same or both are undefined. -/
theorem arithmetic_rereads {e : Expr} (he : e.IsArithmetic encoding)
    (hgroups : ∀ node ∈ e.nodes, node.misgroups = false) (style : Style) :
    ∃ c again, parse encoding (returning (e.print style)) = .ok c ∧ c.body = [.ret [again]] ∧
      ∀ reading, again.rational reading = e.rational reading := by
  rcases he.print_returning style with ⟨c, again, hparse, hagain, hstripped⟩
  refine ⟨c, again, hparse, hagain, fun reading => ?_⟩
  rw [← rational_stripped reading again, hstripped]
  exact (e.regrouped_rational reading hgroups).1

end Arithmetic

def letter (text : String) : Expr :=
  .name ⟨text, false⟩

theorem letter_arithmetic {text : String} (h : text ∈ ["a", "b", "c", "d"]) :
    (letter text).IsArithmetic .utf8 := by
  have halone : ∀ text ∈ ["a", "b", "c", "d"],
      cutLexeme text.toList = some (.name, (text.toList, [])) := by decide
  exact ⟨halone text h, by simp [admits]⟩

/-- A product of a quotient, less a rounded one: `a * (b / c) - -d // 2`. -/
def exactProduct : Expr :=
  .binary .sub (.binary .mul (letter "a") (.binary .div (letter "b") (letter "c")))
    (.binary .floorDiv (.unary .minus (letter "d")) (.number (.written "2") 1))

theorem exactProduct_rereads :
    exactProduct.IsArithmetic .utf8 ∧ (∀ node ∈ exactProduct.nodes, node.misgroups = false) ∧
      ∃ c again, parse .utf8 (returning (exactProduct.print .compact)) = .ok c ∧
        c.body = [.ret [again]] ∧
        ∀ reading, again.rational reading = exactProduct.rational reading := by
  have hnumber : Alone .number "2" := by
    unfold Alone
    decide +kernel
  have harithmetic : exactProduct.IsArithmetic .utf8 :=
    ⟨rfl, ⟨rfl, letter_arithmetic (by decide), rfl, letter_arithmetic (by decide),
        letter_arithmetic (by decide)⟩,
      rfl, ⟨rfl, letter_arithmetic (by decide)⟩, ⟨hnumber, by decide⟩, by decide +kernel⟩
  have hgroups : ∀ node ∈ exactProduct.nodes, node.misgroups = false := by decide
  exact ⟨harithmetic, hgroups, arithmetic_rereads harithmetic hgroups .compact⟩

/-- A product whose right operand starts with a rounded quotient: `a * (b // c * d)`. -/
def roundedProduct : Expr :=
  .binary .mul (letter "a")
    (.binary .mul (.binary .floorDiv (letter "b") (letter "c")) (letter "d"))

def roundedReading : Reading where
  name text := if text = "a" then 2 else if text = "b" then 3 else if text = "c" then 2 else 1
  numeral _ := 0

/-- Its text has no parentheses and is read with another value. -/
theorem roundedProduct_differs :
    roundedProduct.IsArithmetic .utf8 ∧ roundedProduct.print .pretty = "a * b // c * d".toList ∧
      roundedProduct.rational roundedReading = some 2 ∧
      ∃ c again, parse .utf8 (returning (roundedProduct.print .pretty)) = .ok c ∧
        c.body = [.ret [again]] ∧ again.rational roundedReading = some 3 := by
  have harithmetic : roundedProduct.IsArithmetic .utf8 :=
    ⟨rfl, letter_arithmetic (by decide), rfl,
      ⟨rfl, letter_arithmetic (by decide), letter_arithmetic (by decide)⟩,
      letter_arithmetic (by decide)⟩
  rcases harithmetic.print_returning .pretty with ⟨c, again, hparse, hagain, hstripped⟩
  have hvalue : (roundedProduct.stripped regrouped).rational roundedReading = some 3 := by
    decide +kernel
  rw [← hstripped, rational_stripped] at hvalue
  exact ⟨harithmetic, by decide +kernel, by decide +kernel, c, again, hparse, hagain, hvalue⟩

end Lua
end LuaBundle
