import LuaBundle.Proofs.Grammar.Reads

/-!
# Operators and what ends an operand

An expression is read up to a token that neither continues it with a suffix nor joins it to
an operand with an operator that is tight enough.  How tight an operator must be depends on
the right edge of the expression: where that ends in an operand without parentheses, the
operand is read at the precedence of its own operator.
-/

namespace LuaBundle
namespace Lua

open LuaBundle.Lua.Parser

/-!
## Classes of tokens

What a token may be the first of.
-/

def Token.isOneOf (t : Token) (texts : List String) : Bool :=
  t.kind == .reserved && texts.contains t.text

theorem isOneOf_of_is {t : Token} {text : String} (h : t.is text = true) (texts : List String) :
    t.isOneOf texts = texts.contains text := by
  rcases is_iff.mp h with ⟨hkind, rfl⟩
  simp [Token.isOneOf, hkind]

theorem is_of_isOneOf {t : Token} {texts : List String} (h : t.isOneOf texts = false)
    {text : String} (htext : text ∈ texts) : t.is text = false := by
  cases his : t.is text with
  | false => rfl
  | true =>
      rw [isOneOf_of_is his, List.contains_eq_mem, decide_eq_false_iff_not] at h
      exact absurd htext h

theorem isOneOf_of_kind {t : Token} (h : t.kind ≠ .reserved) (texts : List String) :
    t.isOneOf texts = false := by
  simp [Token.isOneOf, h]

def Token.startsSuffix (t : Token) : Bool :=
  t.kind == .string || t.isOneOf ["(", "\x7b", ":", "[", "."]

def Token.startsValue (t : Token) : Bool :=
  t.kind == .name || t.kind == .number || t.kind == .string
    || t.isOneOf ["nil", "false", "true", "...", "function", "\x7b", "("]

def Token.startsExpr (t : Token) : Bool :=
  t.startsValue || t.isOneOf ["not", "-", "#", "~"]

theorem startsSuffix_of_is {t : Token} {text : String} (h : t.is text = true) :
    t.startsSuffix = ["(", "\x7b", ":", "[", "."].contains text := by
  rw [Token.startsSuffix, (is_iff.mp h).1, isOneOf_of_is h]
  rfl

theorem startsExpr_of_is {t : Token} {text : String} (h : t.is text = true) :
    t.startsExpr = (["nil", "false", "true", "...", "function", "\x7b", "("].contains text
      || ["not", "-", "#", "~"].contains text) := by
  rw [Token.startsExpr, Token.startsValue, (is_iff.mp h).1, isOneOf_of_is h, isOneOf_of_is h]
  rfl

/-!
## Nothing starts
-/

section Absent

variable {e : Entry} {t : Token} {rest : List Token}

theorem tableFields_absent (h : t.is "\x7b" = false) : tableFields e (t :: rest) = .absent :=
  bind_absent (sign_absent h)

theorem arguments_absent (hstring : t.kind ≠ .string) (hparen : t.is "(" = false)
    (hbrace : t.is "\x7b" = false) : arguments e (t :: rest) = .absent := by
  refine (orElse_absent (bind_absent (sign_absent hparen))).trans ?_
  refine (orElse_absent (bind_absent (tableFields_absent hbrace))).trans ?_
  exact bind_absent (bind_absent (kind_absent hstring))

theorem suffix_absent (base : Suffixed) (h : ∀ u ∈ rest.head?, u.startsSuffix = false) :
    suffix e base rest = .absent := by
  cases rest with
  | nil => rfl
  | cons t rest =>
      have ht := h t rfl
      simp only [Token.startsSuffix, Bool.or_eq_false_iff, beq_eq_false_iff_ne] at ht
      have his : ∀ text ∈ ["(", "\x7b", ":", "[", "."], t.is text = false :=
        fun _ htext => is_of_isOneOf ht.2 htext
      refine (orElse_absent (bind_absent (arguments_absent ht.1 (his "(" (by simp))
        (his "\x7b" (by simp))))).trans ?_
      refine (orElse_absent (bind_absent (sign_absent (his ":" (by simp))))).trans ?_
      refine (orElse_absent (bind_absent (sign_absent (his "[" (by simp))))).trans ?_
      exact bind_absent (sign_absent (his "." (by simp)))

theorem value_absent (h : t.startsValue = false) : value e (t :: rest) = .absent := by
  simp only [Token.startsValue, Bool.or_eq_false_iff, beq_eq_false_iff_ne] at h
  rcases h with ⟨⟨⟨hname, hnumber⟩, hstring⟩, hsigns⟩
  have his : ∀ text ∈ ["nil", "false", "true", "...", "function", "\x7b", "("],
      sign text (t :: rest) = .absent :=
    fun _ htext => sign_absent (is_of_isOneOf hsigns htext)
  refine (orElse_absent (bind_absent (his "nil" (by simp)))).trans ?_
  refine (orElse_absent (bind_absent (his "false" (by simp)))).trans ?_
  refine (orElse_absent (bind_absent (his "true" (by simp)))).trans ?_
  refine (orElse_absent (bind_absent (kind_absent hnumber))).trans ?_
  refine (orElse_absent (bind_absent (bind_absent (kind_absent hstring)))).trans ?_
  refine (orElse_absent (bind_absent (his "..." (by simp)))).trans ?_
  refine (orElse_absent (bind_absent (his "function" (by simp)))).trans ?_
  refine (orElse_absent (bind_absent (bind_absent (his "\x7b" (by simp))))).trans ?_
  exact bind_absent (suffixed_absent hname (is_of_isOneOf hsigns (by simp)))

theorem unaryOp_absent (h : t.isOneOf ["not", "-", "#", "~"] = false) :
    unaryOp (t :: rest) = .absent := by
  unfold unaryOp
  by_cases hkind : t.kind = .reserved
  · have hsign : UnaryOp.ofSign? t.text = none := by
      have htext : ∀ text ∈ ["not", "-", "#", "~"], text ≠ t.text := by
        rintro text hmem rfl
        rw [isOneOf_of_is (is_of_eq hkind rfl)] at h
        simp only [List.contains_eq_mem, decide_eq_false_iff_not] at h
        exact h hmem
      simp only [UnaryOp.ofSign?, UnaryOp.all, List.find?_eq_none, List.mem_cons,
        List.not_mem_nil, or_false, beq_iff_eq]
      rintro op (rfl | rfl | rfl | rfl) <;> exact htext _ (by decide)
    simp [hkind, hsign]
  · simp [hkind]

theorem expression_absent {precedence : Nat} (h : t.startsExpr = false) :
    expression e precedence (t :: rest) = .absent := by
  simp only [Token.startsExpr, Bool.or_eq_false_iff] at h
  have hoperand : operand e (t :: rest) = .absent :=
    (orElse_absent (bind_absent (unaryOp_absent h.2))).trans (value_absent h.1)
  exact bind_absent hoperand

end Absent

/-!
## Reading operators
-/

theorem ofSign_sign (op : BinaryOp) : BinaryOp.ofSign? op.sign = some op := by
  cases op <;> rfl

theorem unary_ofSign_sign (op : UnaryOp) : UnaryOp.ofSign? op.sign = some op := by
  cases op <;> rfl

theorem sign_reserved (op : BinaryOp) (h : op ≠ .shiftRight) :
    op.sign ∈ keywords ∨ op.sign ∈ signs := by
  cases op <;> first | exact Or.inl (by decide) | exact Or.inr (by decide) | exact absurd rfl h

theorem unary_sign_reserved (op : UnaryOp) : op.sign ∈ keywords ∨ op.sign ∈ signs := by
  cases op <;> first | exact Or.inl (by decide) | exact Or.inr (by decide)

theorem unaryOp_found {op : UnaryOp} {t : Token} (h : t.is op.sign = true) (rest : List Token) :
    unaryOp (t :: rest) = .found op rest := by
  rcases is_iff.mp h with ⟨hkind, htext⟩
  simp [unaryOp, hkind, htext, unary_ofSign_sign]

/-- The sign of an operator is read as the operator, unless a second sign `>` follows. -/
theorem binaryOp_found {op : BinaryOp} {front rest : List Token} (h : Spells op.sign front)
    (hrest : ∀ u ∈ rest.head?, u.is ">" = false) :
    binaryOp (front ++ rest) = .found op rest := by
  by_cases hop : op = .shiftRight
  · subst hop
    rcases h.shift_tokens with ⟨t, u, rfl, ht, hu, hadjoins⟩
    simp [binaryOp, ht, hu, hadjoins]
  · rcases h.alone (alone_reserved (sign_reserved op hop)) with ⟨t, rfl, hkind, htext⟩
    cases rest with
    | nil => simp [binaryOp, hkind, htext, ofSign_sign]
    | cons u rest =>
        have hu := hrest u rfl
        simp [binaryOp, hkind, htext, ofSign_sign, hu]

theorem front_of_sign {op : BinaryOp} {front : List Token} (h : Spells op.sign front) :
    ∃ t more, front = t :: more ∧ t.kind = .reserved ∧ t.startsSuffix = false ∧
      t.isOneOf ["="] = false := by
  by_cases hop : op = .shiftRight
  · subst hop
    rcases h.shift_tokens with ⟨t, u, rfl, ht, _, _⟩
    have hkind := (is_iff.mp ht).1
    refine ⟨t, [u], rfl, hkind, ?_, ?_⟩
    · simp [Token.startsSuffix, hkind, isOneOf_of_is ht]
    · simp [isOneOf_of_is ht]
  · rcases h.alone (alone_reserved (sign_reserved op hop)) with ⟨t, rfl, hkind, htext⟩
    have his := is_of_eq hkind htext
    refine ⟨t, [], rfl, hkind, ?_, ?_⟩
    · simp only [Token.startsSuffix, hkind, isOneOf_of_is his]
      cases op <;> decide
    · rw [isOneOf_of_is his]
      cases op <;> decide

/-!
## What ends an operand
-/

/-- Tokens that end an expression which takes operators from a precedence on. -/
structure Bars (precedence : Nat) (rest : List Token) : Prop where
  operator : ∀ {op more}, binaryOp rest = .found op more → op.precedence < precedence
  suffix : ∀ t ∈ rest.head?, t.startsSuffix = false

theorem Bars.mono {p q : Nat} {rest : List Token} (h : Bars p rest) (hle : p ≤ q) :
    Bars q rest :=
  ⟨fun hop => Nat.lt_of_lt_of_le (h.operator hop) hle, h.suffix⟩

theorem joined_absent {e : Entry} {p : Nat} {rest : List Token} (left : Expr) (h : Bars p rest) :
    joined e p left rest = .absent := by
  unfold joined
  cases hop : binaryOp rest with
  | found op more =>
      refine (bind_found hop).trans ?_
      rw [if_neg (Nat.not_le_of_lt (h.operator hop))]
      rfl
  | absent => exact bind_absent hop
  | failed line =>
      cases rest with
      | nil => cases hop
      | cons t rest =>
          simp only [binaryOp] at hop
          split at hop <;> (repeat' split at hop) <;> cases hop

theorem bars_operator {op : BinaryOp} {front rest : List Token} {p : Nat}
    (h : Spells op.sign front) (hrest : ∀ u ∈ rest.head?, u.is ">" = false)
    (hp : op.precedence < p) : Bars p (front ++ rest) := by
  constructor
  · intro op' more hop'
    rw [binaryOp_found h hrest] at hop'
    cases hop'
    exact hp
  · rcases front_of_sign h with ⟨t, more, rfl, _, ht, _⟩
    intro u hu
    cases hu
    exact ht

/-- Tokens that end every expression. -/
def Token.isStop (t : Token) : Bool :=
  !t.startsSuffix && !t.isOneOf (BinaryOp.all.map BinaryOp.sign)

theorem isStop_of_is {t : Token} {text : String} (h : t.is text = true) :
    t.isStop = (!(["(", "\x7b", ":", "[", "."].contains text)
      && !(BinaryOp.all.map BinaryOp.sign).contains text) := by
  rw [Token.isStop, startsSuffix_of_is h, isOneOf_of_is h]

theorem bars_of_stop {t : Token} (h : t.isStop = true) (p : Nat) (rest : List Token) :
    Bars p (t :: rest) := by
  simp only [Token.isStop, Bool.and_eq_true, Bool.not_eq_true'] at h
  constructor
  · intro op more hop
    have hsign : (if t.kind = .reserved then BinaryOp.ofSign? t.text else none) = none := by
      by_cases hkind : t.kind = .reserved
      · rw [if_pos hkind]
        have hcontains := h.2
        rw [isOneOf_of_is (is_of_eq hkind rfl)] at hcontains
        simp only [List.contains_eq_mem, List.mem_map, decide_eq_false_iff_not] at hcontains
        simp only [BinaryOp.ofSign?, List.find?_eq_none, beq_iff_eq]
        exact fun op hmem heq => hcontains ⟨op, hmem, heq⟩
      · rw [if_neg hkind]
    have hgreater : t.is ">" = false := is_of_isOneOf h.2 (by decide)
    cases rest with
    | nil => simp [binaryOp, hsign] at hop
    | cons u rest => simp [binaryOp, hsign, hgreater] at hop
  · intro u hu
    cases hu
    exact h.1

/-!
## Precedence of operands

An expression ends where the operator that follows is not tight enough to take it.
-/

/-- A precedence that no operator reaches. -/
def beyond : Nat :=
  13

theorem precedence_lt_beyond (op : BinaryOp) : op.rightPrecedence < beyond := by
  cases op <;> decide

/-- The precedence of the operator that an expression is joined by. -/
def Expr.level : Expr → Nat
  | .binary op _ _ => op.precedence
  | _ => beyond

/-- The least precedence that an operand at the right edge of an expression is read at. -/
def Expr.edge : Expr → Nat
  | .binary op _ right =>
      min op.rightPrecedence
        (if right.inParens || right.needsParens (.right op) then beyond else right.edge)
  | .unary _ operand =>
      min UnaryOp.precedence
        (if operand.inParens || operand.needsParens .operand then beyond else operand.edge)
  | _ => beyond

def Position.precedence : Position → Nat
  | .free => 1
  | .left op => op.precedence
  | .right op => op.rightPrecedence
  | .operand => UnaryOp.precedence

theorem rightPrecedence_eq {op inner : BinaryOp} (h : inner.precedence = op.precedence) :
    inner.rightPrecedence = op.rightPrecedence := by
  rw [BinaryOp.rightPrecedence, BinaryOp.rightPrecedence, isRightAssociative_of_precedence h, h]

theorem precedence_le_right (op : BinaryOp) : op.precedence ≤ op.rightPrecedence := by
  unfold BinaryOp.rightPrecedence
  split <;> omega

theorem right_le_precedence (op : BinaryOp) : op.rightPrecedence ≤ op.precedence + 1 := by
  unfold BinaryOp.rightPrecedence
  split <;> omega

theorem precedence_ne_unary (op : BinaryOp) : op.precedence ≠ UnaryOp.precedence := by
  cases op <;> decide

/-- An operation without parentheses on the right is read at least as tightly. -/
theorem rightPrecedence_of_right {op inner : BinaryOp}
    (h : inner.needsParens (.right op) = false) : op.rightPrecedence ≤ inner.rightPrecedence := by
  by_cases heq : inner.precedence = op.precedence
  · exact Nat.le_of_eq (rightPrecedence_eq heq).symm
  · simp only [BinaryOp.needsParens, heq, if_false, decide_eq_false_iff_not] at h
    have hop := right_le_precedence op
    have hinner := precedence_le_right inner
    omega

/-- An operator that ends what is read at a position ends an expression that stands there
without parentheses. -/
theorem edge_gt {q : Nat} (hunary : q ≠ UnaryOp.precedence) : (e : Expr) →
    (position : Position) → position = .operand ∨ (∃ op, position = .right op) →
    e.needsParens position = false → q < position.precedence → q < e.edge
  | .binary op left right, position, hposition, hparens, hq => by
      have hright : q < op.rightPrecedence := by
        rcases hposition with rfl | ⟨outer, rfl⟩
        · simp only [Expr.needsParens, BinaryOp.needsParens, decide_eq_false_iff_not] at hparens
          have hle := precedence_le_right op
          simp only [Position.precedence] at hq
          omega
        · exact Nat.lt_of_lt_of_le hq (rightPrecedence_of_right hparens)
      have hbeyond := precedence_lt_beyond op
      rw [Expr.edge]
      split
      · omega
      · rename_i hopen
        simp only [Bool.or_eq_true, not_or, Bool.not_eq_true] at hopen
        have hmore := edge_gt hunary right (.right op) (Or.inr ⟨op, rfl⟩) hopen.2 hright
        omega
  | .unary op operand, position, hposition, hparens, hq => by
      have hlt : q < UnaryOp.precedence := by
        rcases hposition with rfl | ⟨outer, rfl⟩
        · exact hq
        · cases outer <;>
            simp [Position.precedence, BinaryOp.rightPrecedence, BinaryOp.isRightAssociative,
              BinaryOp.precedence, UnaryOp.precedence] at hq hunary ⊢ <;> omega
      rw [Expr.edge]
      split
      · have hbeyond : UnaryOp.precedence < beyond := by decide
        omega
      · rename_i hopen
        simp only [Bool.or_eq_true, not_or, Bool.not_eq_true] at hopen
        have hmore := edge_gt hunary operand .operand (Or.inl rfl) hopen.2 hlt
        omega
  | .name _, position, hposition, _, hq | .string _, position, hposition, _, hq
  | .number .., position, hposition, _, hq | .boolean _, position, hposition, _, hq
  | .nil, position, hposition, _, hq | .vararg .., position, hposition, _, hq
  | .function .., position, hposition, _, hq | .table _, position, hposition, _, hq
  | .member .., position, hposition, _, hq | .index .., position, hposition, _, hq
  | .call .., position, hposition, _, hq => by
      rcases hposition with rfl | ⟨outer, rfl⟩
      · exact Nat.lt_trans hq (show UnaryOp.precedence < beyond by decide)
      · exact Nat.lt_trans hq (precedence_lt_beyond outer)

theorem edge_gt_left {op : BinaryOp} {e : Expr} (h : e.needsParens (.left op) = false) :
    op.precedence < e.edge := by
  have hne := precedence_ne_unary op
  have hop := Nat.lt_of_le_of_lt (precedence_le_right op) (precedence_lt_beyond op)
  cases e with
  | binary inner left right =>
      have hinner : op.precedence < inner.rightPrecedence := by
        by_cases heq : inner.precedence = op.precedence
        · have hassociative : inner.isRightAssociative = false := by
            cases hright : inner.isRightAssociative with
            | false => rfl
            | true =>
                have hregroups : regroups op inner = false := by
                  cases hgroup : regroups op inner with
                  | false => rfl
                  | true =>
                      rw [isRightAssociative_of_precedence heq,
                        leftAssociative_of_regroups hgroup] at hright
                      cases hright
                simp [Expr.needsParens, BinaryOp.needsParens, heq, hright, hregroups] at h
          simp [BinaryOp.rightPrecedence, hassociative, heq]
        · simp only [Expr.needsParens, BinaryOp.needsParens, heq, if_false,
            decide_eq_false_iff_not] at h
          have hle := precedence_le_right inner
          omega
      rw [Expr.edge]
      split
      · omega
      · rename_i hopen
        simp only [Bool.or_eq_true, not_or, Bool.not_eq_true] at hopen
        have hmore := edge_gt hne right (.right inner) (Or.inr ⟨inner, rfl⟩) hopen.2 hinner
        omega
  | unary inner operand =>
      simp only [Expr.needsParens, unaryNeedsParens, decide_eq_false_iff_not] at h
      have hlt : op.precedence < UnaryOp.precedence := by omega
      rw [Expr.edge]
      split
      · omega
      · rename_i hopen
        simp only [Bool.or_eq_true, not_or, Bool.not_eq_true] at hopen
        have hmore := edge_gt hne operand .operand (Or.inl rfl) hopen.2 hlt
        omega
  | _ => exact hop

end Lua
end LuaBundle
