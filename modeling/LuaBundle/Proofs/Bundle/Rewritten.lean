import LuaBundle.Proofs.Bundle.Stops
import LuaBundle.Proofs.Grammar.Plain
import LuaBundle.Proofs.Literal.Numerals
import LuaBundle.Proofs.Tree.Names
import Mathlib.Data.Nat.Digits.Defs

/-!
# Rewritten trees

A tree with its calls of `require` replaced is as well-formed as it was, has no new faults,
and no new name but that of the loader.
-/

namespace LuaBundle
namespace Lua

open Text

/-!
## Numbers of modules
-/

theorem toList_toString (n : Nat) : (toString n).toList = Nat.toDigits 10 n := by
  simp [Nat.repr]

theorem isDigit_of_mem_toString {n : Nat} {c : Char} (h : c ∈ (toString n).toList) :
    c.isDigit = true := by
  rw [toList_toString] at h
  exact Nat.isDigit_of_mem_toDigits (by decide) (by decide) h

theorem toString_cons (n : Nat) : ∃ c rest, (toString n).toList = c :: rest ∧
    c.isDigit = true ∧ ∀ d ∈ rest, d.isDigit = true := by
  have hne : (toString n).toList ≠ [] := by
    rw [toList_toString]
    exact Nat.toDigits_ne_nil
  rcases List.exists_cons_of_ne_nil hne with ⟨c, rest, hlist⟩
  have hdigits : ∀ d ∈ c :: rest, d.isDigit = true := by
    intro d hd
    rw [← hlist] at hd
    exact isDigit_of_mem_toString hd
  exact ⟨c, rest, hlist, hdigits c (by simp), fun d hd => hdigits d (by simp [hd])⟩

theorem not_mark_of_digits {rest : List Char} (h : ∀ d ∈ rest, d.isDigit = true) :
    ∀ x ∈ rest.head?, x ≠ 'x' ∧ x ≠ 'X' := by
  intro x hx
  have hdigit := h x (List.mem_of_mem_head? hx)
  constructor <;> rintro rfl <;> exact absurd hdigit (by decide)

theorem cutWhile_of_digits {inside : Char → Bool} {text : List Char}
    (h : ∀ c ∈ text, inside c = true) : cutWhile inside text = (text, []) := by
  have hcut := cutWhile_of_all h (startsOutside_nil inside)
  rwa [List.append_nil] at hcut

theorem isDigit_lt {c : Char} (h : c.isDigit = true) : c.toNat < 0x100 := by
  simp only [Char.isDigit, Bool.and_eq_true, decide_eq_true_eq, UInt32.le_iff_toNat_le,
    ge_iff_le] at h
  have hnine : '9'.val.toNat = 0x39 := rfl
  simp only [Char.toNat]
  omega

theorem spelled_toString (encoding : Encoding) (n : Nat) :
    Spelled encoding .number (toString n) := by
  constructor
  · rcases toString_cons n with ⟨c, rest, hlist, hc, hrest⟩
    have hall : ∀ d ∈ c :: rest, isDigitPart d = true := by
      intro d hd
      rcases List.mem_cons.mp hd with rfl | hd
      · simp [isDigitPart, hc]
      · simp [isDigitPart, hrest d hd]
    have hcut : cutDecimal (c :: rest) = (c :: rest, []) := by
      rw [cutDecimal, cutWhile_of_digits hall]
      simp [cutNumberTail, cutFraction, cutExponent, cutSuffix, Cut.after]
    unfold Alone
    rw [hlist]
    refine cutLexeme_number ?_
    rw [cutNumber_of_digit hc fun _ => not_mark_of_digits hrest, hcut]
  · rw [List.all_eq_true]
    intro c hc
    cases encoding with
    | utf8 => rfl
    | bytes => simpa [admits] using isDigit_lt (isDigit_of_mem_toString hc)

theorem numeralValue_toString (n : Nat) : ∃ x, numeralValue? (toString n).toList = some x := by
  rcases toString_cons n with ⟨c, rest, hlist, hc, hrest⟩
  have hall : ∀ d ∈ c :: rest, d.isDigit = true := List.forall_mem_cons.mpr ⟨hc, hrest⟩
  have hunsigned : ∃ u, Decimal.unsigned? (c :: rest) = some u := by
    have hcut := cutWhile_of_digits hall
    rw [cutWhile, Prod.mk.injEq] at hcut
    simp [Decimal.unsigned?, hcut.1, hcut.2, Decimal.exponent?]
  have hread : ∃ x, Decimal.read? (c :: rest) = some x := by
    rcases hunsigned with ⟨u, hu⟩
    simp only [Decimal.read?, sign_of_isDigit hc, hu, Option.map_some, ← Option.isSome_iff_exists,
      Option.isSome_map]
    split <;> rfl
  rw [hlist]
  unfold numeralValue?
  split
  · rename_i heq
    cases heq
    exact absurd rfl (not_mark_of_digits hrest 'x' rfl).1
  · rename_i heq
    cases heq
    exact absurd rfl (not_mark_of_digits hrest 'X' rfl).2
  · exact hread

/-!
## The call of the loader
-/

theorem spelled_of_ascii {encoding : Encoding} {kind : Lexeme.Kind} {text : String}
    (halone : Alone kind text) (hascii : (text.toList.all fun c => c.toNat < 0x100) = true) :
    Spelled encoding kind text := by
  refine ⟨halone, ?_⟩
  cases encoding with
  | utf8 => exact List.all_eq_true.mpr fun _ _ => rfl
  | bytes => exact hascii

theorem spelled_loader (encoding : Encoding) : Spelled encoding .name loaderName :=
  spelled_of_ascii (by unfold Alone; decide) (by decide)

theorem loadCall_wellFormed (encoding : Encoding) (callee : Bool) (id : Nat) :
    (loadCall id).WellFormed encoding callee :=
  ⟨rfl, spelled_loader encoding, spelled_toString encoding id, trivial⟩

theorem replacement_wellFormed {encoding : Encoding} {callee : Bool} (e : Expr) (id : Nat) :
    (replacement e id).WellFormed encoding callee := by
  unfold replacement
  split <;> exact loadCall_wellFormed encoding callee id

theorem replacement_inParens (e : Expr) (id : Nat) : (replacement e id).inParens = e.inParens := by
  unfold replacement
  cases h : e.inParens <;> rfl

theorem replacement_isCall (e : Expr) (id : Nat) : (replacement e id).isCall = true := by
  unfold replacement
  split <;> rfl

/-!
## Shapes

A rewritten expression has the shape of the expression.
-/

section Shapes

variable (number : String → Nat)

theorem rewrite_call (base : Expr) (arguments : Args) (inParens : Bool) (line : Nat) :
    (∃ name callLine, requireCall? (.call base arguments inParens line) =
        some (.module name callLine) ∧
      (Expr.call base arguments inParens line).rewrite number =
        replacement (.call base arguments inParens line) (number name)) ∨
    (∀ name callLine, requireCall? (.call base arguments inParens line) ≠
        some (.module name callLine)) ∧
      (Expr.call base arguments inParens line).rewrite number =
        .call (base.rewrite number) (arguments.rewrite number) inParens line := by
  rw [Expr.rewrite]
  split
  · rename_i name callLine heq
    exact Or.inl ⟨name, callLine, heq, rfl⟩
  · rename_i hne
    exact Or.inr ⟨hne, rfl⟩

theorem rewrite_inParens (e : Expr) : (e.rewrite number).inParens = e.inParens := by
  cases e with
  | call base arguments inParens line =>
      rcases rewrite_call number base arguments inParens line with
        ⟨name, callLine, _, heq⟩ | ⟨_, heq⟩
      · rw [heq, replacement_inParens]
      · rw [heq]
        rfl
  | _ => rfl

theorem rewrite_isCall (e : Expr) : (e.rewrite number).isCall = e.isCall := by
  cases e with
  | call base arguments inParens line =>
      rcases rewrite_call number base arguments inParens line with
        ⟨name, callLine, _, heq⟩ | ⟨_, heq⟩
      · rw [heq, replacement_isCall]
        rfl
      · rw [heq]
        rfl
  | _ => rfl

theorem rewrite_isRest (e : Expr) : (e.rewrite number).isRest = e.isRest := by
  cases e with
  | call base arguments inParens line =>
      rcases rewrite_call number base arguments inParens line with
        ⟨name, callLine, _, heq⟩ | ⟨_, heq⟩
      · rw [heq]
        unfold replacement
        split <;> rfl
      · rw [heq]
        rfl
  | _ => rfl

theorem rewrite_isTarget {es : List Expr} (h : es.all Expr.isTarget = true) :
    (rewriteExprs number es).all Expr.isTarget = true := by
  induction es with
  | nil => rfl
  | cons e rest ih =>
      simp only [List.all_cons, Bool.and_eq_true] at h
      simp only [rewriteExprs, List.all_cons, Bool.and_eq_true, ih h.2, and_true]
      cases e <;> first | rfl | cases h.1

theorem rewrite_parameters {encoding : Encoding} : {parameters : List Expr} →
    Parameters encoding parameters → rewriteExprs number parameters = parameters
  | [], _ => rfl
  | .name n :: _, h => congrArg (Expr.name n :: ·) (rewrite_parameters h.2)
  | [.vararg .., ], _ => rfl

theorem rewrite_dotted {encoding : Encoding} : {e : Expr} → e.IsDotted encoding →
    e.rewrite number = e
  | .name _, _ => rfl
  | .member _ indexer n, h => congrArg (Expr.member · indexer n) (rewrite_dotted h.2.1)

theorem rewrite_functionName {encoding : Encoding} {isLocal : Bool} {name : Option Expr}
    (h : FunctionName encoding isLocal name) : rewriteOption number name = name := by
  cases name with
  | none => rfl
  | some e =>
      cases e with
      | name n => rfl
      | member base indexer n =>
          exact congrArg (fun base => some (Expr.member base indexer n))
            (rewrite_dotted number h.2.1)
      | _ => cases h

theorem rewrite_furtherClauses {clauses : List Clause} (h : furtherClauses clauses = true) :
    furtherClauses (rewriteClauses number clauses) = true := by
  induction clauses with
  | nil => rfl
  | cons c rest ih =>
      cases c with
      | first condition body => cases h
      | next condition body => exact ih h
      | otherwise body =>
          cases rest with
          | nil => rfl
          | cons next rest => cases h

theorem rewrite_choiceClauses {clauses : List Clause} (h : choiceClauses clauses = true) :
    choiceClauses (rewriteClauses number clauses) = true := by
  cases clauses with
  | nil => cases h
  | cons c rest =>
      cases c with
      | first condition body => exact rewrite_furtherClauses number h
      | _ => cases h

theorem rewrite_isLast (s : Stat) : (s.rewrite number).isLast = s.isLast := by
  cases s <;> rfl

theorem rewriteExprs_ne_nil {es : List Expr} (h : es ≠ []) : rewriteExprs number es ≠ [] := by
  cases es with
  | nil => exact absurd rfl h
  | cons e rest => simp [rewriteExprs]

end Shapes

/-!
## Well-formed trees
-/

section WellFormed

variable {encoding : Encoding} (number : String → Nat)

mutual

theorem Expr.wellFormed_rewrite {callee : Bool} : (e : Expr) → e.WellFormed encoding callee →
    (e.rewrite number).WellFormed encoding callee
  | .name _, h | .string _, h | .number .., h | .boolean _, h | .nil, h | .vararg .., h => h
  | .function _ body, h => by
      simp only [Expr.rewrite, Expr.WellFormed, rewrite_parameters number h.1]
      exact ⟨h.1, block_wellFormed_rewrite body h.2⟩
  | .table fields, h => fields_wellFormed_rewrite fields h
  | .binary _ left right, h => ⟨left.wellFormed_rewrite h.1, right.wellFormed_rewrite h.2⟩
  | .unary _ operand, h => operand.wellFormed_rewrite h
  | .member base _ _, h =>
      ⟨h.1, (rewrite_isRest number base).trans h.2.1, base.wellFormed_rewrite h.2.2.1, h.2.2.2⟩
  | .index base key, h =>
      ⟨(rewrite_isRest number base).trans h.1, base.wellFormed_rewrite h.2.1,
        key.wellFormed_rewrite h.2.2⟩
  | .call base arguments inParens line, h => by
      rcases rewrite_call number base arguments inParens line with ⟨name, _, _, heq⟩ | ⟨_, heq⟩
      · rw [heq]
        exact replacement_wellFormed _ _
      · rw [heq]
        exact ⟨(rewrite_isRest number base).trans h.1, base.wellFormed_rewrite h.2.1,
          arguments.wellFormed_rewrite h.2.2⟩

theorem Args.wellFormed_rewrite : (arguments : Args) → arguments.WellFormed encoding →
    (arguments.rewrite number).WellFormed encoding
  | .list arguments, h => exprs_wellFormed_rewrite arguments h
  | .table fields, h => fields_wellFormed_rewrite fields h
  | .string _, h => h

theorem Field.wellFormed_rewrite : (f : Field) → f.WellFormed encoding →
    (f.rewrite number).WellFormed encoding
  | .keyed key value, h => ⟨key.wellFormed_rewrite h.1, value.wellFormed_rewrite h.2⟩
  | .named _ value, h => ⟨h.1, value.wellFormed_rewrite h.2⟩
  | .positional value, h => value.wellFormed_rewrite h

theorem Stat.wellFormed_rewrite : (s : Stat) → s.WellFormed encoding →
    (s.rewrite number).WellFormed encoding
  | .label _, h | .goto _, h | .leave, h => h
  | .ret values, h => exprs_wellFormed_rewrite values h
  | .choice clauses, h =>
      ⟨rewrite_choiceClauses number h.1, clauses_wellFormed_rewrite clauses h.2⟩
  | .whileLoop condition body, h =>
      ⟨condition.wellFormed_rewrite h.1, block_wellFormed_rewrite body h.2⟩
  | .block body, h => block_wellFormed_rewrite body h
  | .repeatLoop body condition, h =>
      ⟨block_wellFormed_rewrite body h.1, condition.wellFormed_rewrite h.2⟩
  | .locals _ values, h => ⟨h.1, h.2.1, exprs_wellFormed_rewrite values h.2.2⟩
  | .assign targets values, h =>
      ⟨rewriteExprs_ne_nil number h.1, rewriteExprs_ne_nil number h.2.1,
        rewrite_isTarget number h.2.2.1, exprs_wellFormed_rewrite targets h.2.2.2.1,
        exprs_wellFormed_rewrite values h.2.2.2.2⟩
  | .call e, h =>
      ⟨(rewrite_isCall number e).trans h.1, (rewrite_inParens number e).trans h.2.1,
        e.wellFormed_rewrite h.2.2⟩
  | .function _ _ _ body, h => by
      simp only [Stat.rewrite, Stat.WellFormed, rewrite_functionName number h.1,
        rewrite_parameters number h.2.1]
      exact ⟨h.1, h.2.1, block_wellFormed_rewrite body h.2.2⟩
  | .forRange _ first last step body, h =>
      ⟨h.1, first.wellFormed_rewrite h.2.1, last.wellFormed_rewrite h.2.2.1,
        option_wellFormed_rewrite step h.2.2.2.1, block_wellFormed_rewrite body h.2.2.2.2⟩
  | .forEach _ iterators body, h =>
      ⟨h.1, h.2.1, rewriteExprs_ne_nil number h.2.2.1,
        exprs_wellFormed_rewrite iterators h.2.2.2.1, block_wellFormed_rewrite body h.2.2.2.2⟩

theorem Clause.wellFormed_rewrite : (c : Clause) → c.WellFormed encoding →
    (c.rewrite number).WellFormed encoding
  | .first condition body, h =>
      ⟨condition.wellFormed_rewrite h.1, block_wellFormed_rewrite body h.2⟩
  | .next condition body, h =>
      ⟨condition.wellFormed_rewrite h.1, block_wellFormed_rewrite body h.2⟩
  | .otherwise body, h => block_wellFormed_rewrite body h

theorem option_wellFormed_rewrite : (o : Option Expr) → optionWellFormed encoding o →
    optionWellFormed encoding (rewriteOption number o)
  | none, h => h
  | some e, h => e.wellFormed_rewrite h

theorem exprs_wellFormed_rewrite : (es : List Expr) → exprsWellFormed encoding es →
    exprsWellFormed encoding (rewriteExprs number es)
  | [], h => h
  | e :: rest, h => ⟨e.wellFormed_rewrite h.1, exprs_wellFormed_rewrite rest h.2⟩

theorem fields_wellFormed_rewrite : (fs : List Field) → fieldsWellFormed encoding fs →
    fieldsWellFormed encoding (rewriteFields number fs)
  | [], h => h
  | f :: rest, h => ⟨f.wellFormed_rewrite h.1, fields_wellFormed_rewrite rest h.2⟩

theorem block_wellFormed_rewrite : (body : List Stat) → blockWellFormed encoding body →
    blockWellFormed encoding (rewriteBlock number body)
  | [], h => h
  | s :: rest, h => by
      refine ⟨s.wellFormed_rewrite h.1, fun hlast => ?_, block_wellFormed_rewrite rest h.2.2⟩
      rw [rewrite_isLast] at hlast
      rw [h.2.1 hlast]
      rfl

theorem clauses_wellFormed_rewrite : (clauses : List Clause) →
    clausesWellFormed encoding clauses →
    clausesWellFormed encoding (rewriteClauses number clauses)
  | [], h => h
  | c :: rest, h => ⟨c.wellFormed_rewrite h.1, clauses_wellFormed_rewrite rest h.2⟩

end

end WellFormed

/-!
## Faults
-/

section Faults

variable {encoding : Encoding} (number : String → Nat)

theorem replacement_faults (rest : Bool) (e : Expr) (id : Nat) :
    (replacement e id).faults encoding rest = [] := by
  rcases numeralValue_toString id with ⟨x, hx⟩
  have hcall : ∀ inParens, (Expr.call (localRef loaderName) (.list [numberExpr id]) inParens
      0).faults encoding rest = [] := by
    intro inParens
    simp only [Expr.faults, Args.faults, exprFaults, localRef, numberExpr, Numeral.faults, hx,
      List.append_nil]
  unfold replacement
  split <;> exact hcall _

theorem takesRest_rewrite (parameters : List Expr) :
    takesRest (rewriteExprs number parameters) = takesRest parameters := by
  unfold takesRest
  induction parameters with
  | nil => rfl
  | cons e rest ih =>
      rw [rewriteExprs, List.any_cons, List.any_cons, ih]
      congr 1
      cases e with
      | call base arguments inParens line =>
          rcases rewrite_call number base arguments inParens line with ⟨_, _, _, heq⟩ | ⟨_, heq⟩
          · rw [heq]
            cases inParens <;> rfl
          · rw [heq]
      | _ => rfl

mutual

theorem Expr.faults_rewrite (rest : Bool) : (e : Expr) → e.faults encoding rest = [] →
    (e.rewrite number).faults encoding rest = []
  | .name _, h | .string _, h | .number .., h | .boolean _, h | .nil, h | .vararg .., h => h
  | .function parameters body, h => by
      rw [Expr.rewrite, Expr.faults, takesRest_rewrite]
      exact block_faults_rewrite (takesRest parameters) body h
  | .table fields, h => fields_faults_rewrite rest fields h
  | .binary _ left right, h => by
      simp only [Expr.faults, List.append_eq_nil_iff] at h
      simp only [Expr.rewrite, Expr.faults, left.faults_rewrite rest h.1,
        right.faults_rewrite rest h.2, List.append_nil]
  | .unary _ operand, h => operand.faults_rewrite rest h
  | .member base _ _, h => base.faults_rewrite rest h
  | .index base key, h => by
      simp only [Expr.faults, List.append_eq_nil_iff] at h
      simp only [Expr.rewrite, Expr.faults, base.faults_rewrite rest h.1,
        key.faults_rewrite rest h.2, List.append_nil]
  | .call base arguments inParens line, h => by
      simp only [Expr.faults, List.append_eq_nil_iff] at h
      rcases rewrite_call number base arguments inParens line with ⟨name, _, _, heq⟩ | ⟨_, heq⟩
      · rw [heq, replacement_faults]
      · simp only [heq, Expr.faults, base.faults_rewrite rest h.1,
          arguments.faults_rewrite rest h.2, List.append_nil]

theorem Args.faults_rewrite (rest : Bool) : (arguments : Args) →
    arguments.faults encoding rest = [] → (arguments.rewrite number).faults encoding rest = []
  | .list arguments, h => exprs_faults_rewrite rest arguments h
  | .table fields, h => fields_faults_rewrite rest fields h
  | .string _, h => h

theorem Field.faults_rewrite (rest : Bool) : (f : Field) → f.faults encoding rest = [] →
    (f.rewrite number).faults encoding rest = []
  | .keyed key value, h => by
      simp only [Field.faults, List.append_eq_nil_iff] at h
      simp only [Field.rewrite, Field.faults, key.faults_rewrite rest h.1,
        value.faults_rewrite rest h.2, List.append_nil]
  | .named _ value, h => value.faults_rewrite rest h
  | .positional value, h => value.faults_rewrite rest h

theorem Stat.faults_rewrite (rest : Bool) : (s : Stat) → s.faults encoding rest = [] →
    (s.rewrite number).faults encoding rest = []
  | .label _, h | .goto _, h | .leave, h => h
  | .ret values, h => exprs_faults_rewrite rest values h
  | .choice clauses, h => clauses_faults_rewrite rest clauses h
  | .whileLoop condition body, h => by
      simp only [Stat.faults, List.append_eq_nil_iff] at h
      simp only [Stat.rewrite, Stat.faults, condition.faults_rewrite rest h.1,
        block_faults_rewrite rest body h.2, List.append_nil]
  | .block body, h => block_faults_rewrite rest body h
  | .repeatLoop body condition, h => by
      simp only [Stat.faults, List.append_eq_nil_iff] at h
      simp only [Stat.rewrite, Stat.faults, condition.faults_rewrite rest h.2,
        block_faults_rewrite rest body h.1, List.append_nil]
  | .locals _ values, h => by
      simp only [Stat.faults, List.append_eq_nil_iff] at h
      simp only [Stat.rewrite, Stat.faults, h.1, exprs_faults_rewrite rest values h.2,
        List.append_nil]
  | .assign targets values, h => by
      simp only [Stat.faults, List.append_eq_nil_iff] at h
      simp only [Stat.rewrite, Stat.faults, exprs_faults_rewrite rest targets h.1,
        exprs_faults_rewrite rest values h.2, List.append_nil]
  | .call e, h => e.faults_rewrite rest h
  | .function _ name parameters body, h => by
      simp only [Stat.faults, List.append_eq_nil_iff] at h
      simp only [Stat.rewrite, Stat.faults, takesRest_rewrite, option_faults_rewrite rest name h.1,
        block_faults_rewrite (takesRest parameters) body h.2, List.append_nil]
  | .forRange _ first last step body, h => by
      simp only [Stat.faults, List.append_eq_nil_iff] at h
      simp only [Stat.rewrite, Stat.faults, first.faults_rewrite rest h.1.1.1,
        last.faults_rewrite rest h.1.1.2, option_faults_rewrite rest step h.1.2,
        block_faults_rewrite rest body h.2, List.append_nil]
  | .forEach _ iterators body, h => by
      simp only [Stat.faults, List.append_eq_nil_iff] at h
      simp only [Stat.rewrite, Stat.faults, exprs_faults_rewrite rest iterators h.1,
        block_faults_rewrite rest body h.2, List.append_nil]

theorem Clause.faults_rewrite (rest : Bool) : (c : Clause) → c.faults encoding rest = [] →
    (c.rewrite number).faults encoding rest = []
  | .first condition body, h | .next condition body, h => by
      simp only [Clause.faults, List.append_eq_nil_iff] at h
      simp only [Clause.rewrite, Clause.faults, condition.faults_rewrite rest h.1,
        block_faults_rewrite rest body h.2, List.append_nil]
  | .otherwise body, h => block_faults_rewrite rest body h

theorem option_faults_rewrite (rest : Bool) : (o : Option Expr) →
    optionFaults encoding rest o = [] → optionFaults encoding rest (rewriteOption number o) = []
  | none, h => h
  | some e, h => e.faults_rewrite rest h

theorem exprs_faults_rewrite (rest : Bool) : (es : List Expr) →
    exprFaults encoding rest es = [] → exprFaults encoding rest (rewriteExprs number es) = []
  | [], h => h
  | e :: more, h => by
      simp only [exprFaults, List.append_eq_nil_iff] at h
      simp only [rewriteExprs, exprFaults, e.faults_rewrite rest h.1,
        exprs_faults_rewrite rest more h.2, List.append_nil]

theorem fields_faults_rewrite (rest : Bool) : (fs : List Field) →
    fieldFaults encoding rest fs = [] → fieldFaults encoding rest (rewriteFields number fs) = []
  | [], h => h
  | f :: more, h => by
      simp only [fieldFaults, List.append_eq_nil_iff] at h
      simp only [rewriteFields, fieldFaults, f.faults_rewrite rest h.1,
        fields_faults_rewrite rest more h.2, List.append_nil]

theorem block_faults_rewrite (rest : Bool) : (body : List Stat) →
    blockFaults encoding rest body = [] → blockFaults encoding rest (rewriteBlock number body) = []
  | [], h => h
  | s :: more, h => by
      simp only [blockFaults, List.append_eq_nil_iff] at h
      simp only [rewriteBlock, blockFaults, s.faults_rewrite rest h.1,
        block_faults_rewrite rest more h.2, List.append_nil]

theorem clauses_faults_rewrite (rest : Bool) : (clauses : List Clause) →
    clauseFaults encoding rest clauses = [] →
    clauseFaults encoding rest (rewriteClauses number clauses) = []
  | [], h => h
  | c :: more, h => by
      simp only [clauseFaults, List.append_eq_nil_iff] at h
      simp only [rewriteClauses, clauseFaults, c.faults_rewrite rest h.1,
        clauses_faults_rewrite rest more h.2, List.append_nil]

end

end Faults

/-!
## Names
-/

section Names

variable (number : String → Nat)

/-- Names that are all in a list or the loader's. -/
def KnownNames (names known : List String) : Prop :=
  ∀ name ∈ names, name ∈ known ∨ name = loaderName

variable {number}

theorem knownNames_self (names : List String) : KnownNames names names :=
  fun _ h => Or.inl h

theorem KnownNames.append {names names' known known' : List String} (h : KnownNames names known)
    (h' : KnownNames names' known') : KnownNames (names ++ names') (known ++ known') := by
  intro name hname
  rcases List.mem_append.mp hname with hname | hname
  · exact (h name hname).imp_left (List.mem_append_left _)
  · exact (h' name hname).imp_left (List.mem_append_right _)

theorem KnownNames.cons {name : String} {names known : List String} (h : KnownNames names known) :
    KnownNames (name :: names) (name :: known) :=
  (knownNames_self [name]).append h

theorem replacement_names (e : Expr) (id : Nat) (known : List String) :
    KnownNames (replacement e id).names known := by
  intro name hname
  unfold replacement at hname
  split at hname <;> exact Or.inr (List.mem_singleton.mp hname)

mutual

theorem Expr.names_rewrite : (e : Expr) → KnownNames (e.rewrite number).names e.names
  | .name _ | .string _ | .number .. | .boolean _ | .nil | .vararg .. => knownNames_self _
  | .function parameters body => (exprs_names_rewrite parameters).append (block_names_rewrite body)
  | .table fields => fields_names_rewrite fields
  | .binary _ left right => left.names_rewrite.append right.names_rewrite
  | .unary _ operand => operand.names_rewrite
  | .member base _ n => base.names_rewrite.append (knownNames_self [n.text])
  | .index base key => base.names_rewrite.append key.names_rewrite
  | .call base arguments inParens line => by
      rcases rewrite_call number base arguments inParens line with ⟨name, _, _, heq⟩ | ⟨_, heq⟩
      · rw [heq]
        exact replacement_names _ _ _
      · rw [heq]
        exact base.names_rewrite.append arguments.names_rewrite

theorem Args.names_rewrite : (arguments : Args) →
    KnownNames (arguments.rewrite number).names arguments.names
  | .list arguments => exprs_names_rewrite arguments
  | .table fields => fields_names_rewrite fields
  | .string _ => knownNames_self _

theorem Field.names_rewrite : (f : Field) → KnownNames (f.rewrite number).names f.names
  | .keyed key value => key.names_rewrite.append value.names_rewrite
  | .named _ value => value.names_rewrite.cons
  | .positional value => value.names_rewrite

theorem Stat.names_rewrite : (s : Stat) → KnownNames (s.rewrite number).names s.names
  | .label _ | .goto _ | .leave => knownNames_self _
  | .ret values => exprs_names_rewrite values
  | .choice clauses => clauses_names_rewrite clauses
  | .whileLoop condition body => condition.names_rewrite.append (block_names_rewrite body)
  | .block body => block_names_rewrite body
  | .repeatLoop body condition => (block_names_rewrite body).append condition.names_rewrite
  | .locals vars values =>
      (knownNames_self (vars.flatMap LocalVar.names)).append (exprs_names_rewrite values)
  | .assign targets values => (exprs_names_rewrite targets).append (exprs_names_rewrite values)
  | .call e => e.names_rewrite
  | .function _ name parameters body =>
      ((option_names_rewrite name).append (exprs_names_rewrite parameters)).append
        (block_names_rewrite body)
  | .forRange _ first last step body =>
      ((first.names_rewrite.cons.append last.names_rewrite).append
        (option_names_rewrite step)).append (block_names_rewrite body)
  | .forEach vars iterators body =>
      ((knownNames_self (vars.map Name.text)).append (exprs_names_rewrite iterators)).append
        (block_names_rewrite body)

theorem Clause.names_rewrite : (c : Clause) → KnownNames (c.rewrite number).names c.names
  | .first condition body | .next condition body =>
      condition.names_rewrite.append (block_names_rewrite body)
  | .otherwise body => block_names_rewrite body

theorem option_names_rewrite : (o : Option Expr) →
    KnownNames (optionNames (rewriteOption number o)) (optionNames o)
  | none => knownNames_self _
  | some e => e.names_rewrite

theorem exprs_names_rewrite : (es : List Expr) →
    KnownNames (exprNames (rewriteExprs number es)) (exprNames es)
  | [] => knownNames_self _
  | e :: rest => e.names_rewrite.append (exprs_names_rewrite rest)

theorem fields_names_rewrite : (fs : List Field) →
    KnownNames (fieldNames (rewriteFields number fs)) (fieldNames fs)
  | [] => knownNames_self _
  | f :: rest => f.names_rewrite.append (fields_names_rewrite rest)

theorem block_names_rewrite : (body : List Stat) →
    KnownNames (blockNames (rewriteBlock number body)) (blockNames body)
  | [] => knownNames_self _
  | s :: rest => s.names_rewrite.append (block_names_rewrite rest)

theorem clauses_names_rewrite : (clauses : List Clause) →
    KnownNames (clauseNames (rewriteClauses number clauses)) (clauseNames clauses)
  | [] => knownNames_self _
  | c :: rest => c.names_rewrite.append (clauses_names_rewrite rest)

end

end Names

end Lua
end LuaBundle
