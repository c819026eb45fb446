import LuaBundle.Proofs.Grammar.Values

/-!
# Reading printed expressions with operators

An operand is read first, and then every operator that is tight enough with its right operand.
A right operand that was printed without parentheses although its operator is just as tight is
taken apart again: its own left operand is joined first, and the rest follows.
-/

namespace LuaBundle
namespace Lua

open Text
open LuaBundle.Lua.Parser

/-!
## The groups of a layout
-/

theorem attach_of_precedence {op inner : BinaryOp} {left first second : Expr}
    (h : inner.precedence = op.precedence) :
    attach op left (.binary inner first second) = .binary inner (attach op left first) second := by
  rw [attach, if_pos h]

theorem attach_attach {op inner : BinaryOp} (left first : Expr)
    (h : inner.precedence = op.precedence) : (second : Expr) →
    attach op left (attach inner first second) = attach inner (attach op left first) second
  | .binary other a b => by
      by_cases hother : other.precedence = inner.precedence
      · rw [attach_of_precedence hother, attach_of_precedence hother,
          attach_of_precedence (hother.trans h), attach_attach left first h a]
      · have hne : (Expr.binary other a b).hasPrecedence inner.precedence = false := by
          simpa [Expr.hasPrecedence] using hother
        rw [attach_of_ne hne, attach_of_ne hne, attach_of_precedence h]
  | .name _ | .string _ | .number .. | .boolean _ | .nil | .vararg .. | .function .. | .table _
  | .unary .. | .member .. | .index .. | .call .. => attach_of_precedence h

/-- What an operation is read as, given whether its right operand stands in parentheses. -/
def grouped (op : BinaryOp) (parens : Bool) (left right : Expr) : Expr :=
  if parens || op.isRightAssociative then .binary op left right else attach op left right

theorem regrouped_eq_grouped (op : BinaryOp) (left right : Expr) :
    regrouped op left right =
      grouped op (right.inParens || right.needsParens (.right op)) left right := by
  cases right with
  | binary inner first second =>
      by_cases hsame : inner.precedence = op.precedence
      · have hassociative := isRightAssociative_of_precedence hsame
        cases hright : op.isRightAssociative with
        | true =>
            have hno : regroups op inner = false := by
              cases hgroup : regroups op inner with
              | false => rfl
              | true => rw [leftAssociative_of_regroups hgroup] at hright; cases hright
            simp [regrouped, grouped, hno, hright]
        | false =>
            cases hgroup : regroups op inner <;>
              simp [regrouped, grouped, hsame, hgroup, hright, hassociative, Expr.inParens,
                Expr.needsParens, BinaryOp.needsParens]
      · have hne : (Expr.binary inner first second).hasPrecedence op.precedence = false := by
          simpa [Expr.hasPrecedence] using hsame
        simp [regrouped, grouped, hsame, attach_of_ne hne]
  | _ => simp [regrouped, grouped, attach]

/-!
## First tokens
-/

section Expressions

variable {style : Style} {encoding : Encoding} {en : Entry} {bound : Nat}

theorem startsExpr_enclosed {e : Expr} {parens : Bool} {depth : Nat} {ts : List Token}
    (hopen : ∀ {ts}, Reads (e.pieces style depth) ts → ∃ t more, ts = t :: more ∧
      t.startsExpr = true)
    (hreads : Reads (enclosed parens (e.pieces style depth)) ts) :
    ∃ t more, ts = t :: more ∧ t.startsExpr = true := by
  cases parens with
  | true =>
      rcases reads_enclosed.mp hreads with ⟨t, inner, u, rfl, ht, _, _⟩
      exact ⟨t, inner ++ [u], rfl, (startsExpr_of_is ht).trans (by decide)⟩
  | false => exact hopen hreads

theorem startsExpr_front {front back : List Piece} {ts : List Token}
    (hfront : ∀ {ts}, Reads front ts → ∃ t more, ts = t :: more ∧ t.startsExpr = true)
    (hreads : Reads (front ++ back) ts) : ∃ t more, ts = t :: more ∧ t.startsExpr = true := by
  rcases reads_append.mp hreads with ⟨first, rest, rfl, hfirst, _⟩
  rcases hfront hfirst with ⟨t, more, rfl, ht⟩
  exact ⟨t, more ++ rest, rfl, ht⟩

theorem starts_expression {callee : Bool} {depth : Nat} : (e : Expr) →
    e.WellFormed encoding callee → ∀ {ts : List Token}, Reads (e.pieces style depth) ts →
    ∃ t more, ts = t :: more ∧ t.startsExpr = true
  | .name n, he, ts, hreads => by
      rw [Expr.pieces, reads_word he.alone] at hreads
      rcases hreads with ⟨t, more, rfl, hkind, _, _⟩
      exact ⟨t, more, rfl, by simp [Token.startsExpr, Token.startsValue, hkind]⟩
  | .string literal, he, ts, hreads => by
      rw [Expr.pieces, reads_word he.alone] at hreads
      rcases hreads with ⟨t, more, rfl, hkind, _, _⟩
      exact ⟨t, more, rfl, by simp [Token.startsExpr, Token.startsValue, hkind]⟩
  | .number (.written raw) line, he, ts, hreads => by
      rw [Expr.pieces] at hreads
      rcases reads_numeral he.alone hreads with ⟨t, more, rfl, hkind, _, _⟩
      exact ⟨t, more, rfl, by simp [Token.startsExpr, Token.startsValue, hkind]⟩
  | .number (.value _) _, he, _, _ => he.elim
  | .boolean true, _, ts, hreads => by
      rcases (reads_sign (Or.inl (by decide))).mp hreads with ⟨t, more, rfl, ht, _⟩
      exact ⟨t, more, rfl, (startsExpr_of_is ht).trans (by decide)⟩
  | .boolean false, _, ts, hreads => by
      rcases (reads_sign (Or.inl (by decide))).mp hreads with ⟨t, more, rfl, ht, _⟩
      exact ⟨t, more, rfl, (startsExpr_of_is ht).trans (by decide)⟩
  | .nil, _, ts, hreads => by
      rcases (reads_sign (Or.inl (by decide))).mp hreads with ⟨t, more, rfl, ht, _⟩
      exact ⟨t, more, rfl, (startsExpr_of_is ht).trans (by decide)⟩
  | .vararg .., _, ts, hreads => by
      rcases (reads_sign (Or.inr (by decide))).mp hreads with ⟨t, more, rfl, ht, _⟩
      exact ⟨t, more, rfl, (startsExpr_of_is ht).trans (by decide)⟩
  | .function parameters body, _, ts, hreads => by
      rw [Expr.pieces] at hreads
      rcases (reads_sign (Or.inl (by decide))).mp hreads with ⟨t, more, rfl, ht, _⟩
      exact ⟨t, more, rfl, (startsExpr_of_is ht).trans (by decide)⟩
  | .table fields, _, ts, hreads => by
      rw [Expr.pieces] at hreads
      rcases reads_table hreads with ⟨t, inner, u, rfl, ht, _, _⟩
      exact ⟨t, inner ++ [u], rfl, (startsExpr_of_is ht).trans (by decide)⟩
  | .binary op left right, he, ts, hreads => by
      rw [Expr.pieces, List.append_assoc] at hreads
      exact startsExpr_front (startsExpr_enclosed (starts_expression left he.1)) hreads
  | .unary op operand, _, ts, hreads => by
      rw [Expr.pieces] at hreads
      rcases (reads_sign (unary_sign_reserved op)).mp hreads with ⟨t, more, rfl, ht, _⟩
      refine ⟨t, more, rfl, (startsExpr_of_is ht).trans ?_⟩
      cases op <;> decide
  | .member base indexer n, he, ts, hreads => by
      rw [Expr.pieces] at hreads
      exact startsExpr_front (startsExpr_enclosed (starts_expression base he.2.2.1)) hreads
  | .index base key, he, ts, hreads => by
      rw [Expr.pieces, List.append_assoc] at hreads
      exact startsExpr_front (startsExpr_enclosed (starts_expression base he.2.1)) hreads
  | .call base arguments _ _, he, ts, hreads => by
      rw [Expr.pieces] at hreads
      exact startsExpr_front (startsExpr_enclosed (starts_expression base he.2.1)) hreads

theorem startsExpr_not_greater {t : Token} (h : t.startsExpr = true) : t.is ">" = false := by
  cases his : t.is ">" with
  | false => rfl
  | true =>
      rw [startsExpr_of_is his] at h
      exact absurd h (by decide)

theorem head_not_greater {e : Expr} {parens : Bool} {depth : Nat} {ts : List Token}
    (he : e.WellFormed encoding false) (hreads : Reads (enclosed parens (e.pieces style depth)) ts)
    (rest : List Token) : ∀ u ∈ (ts ++ rest).head?, u.is ">" = false := by
  rcases startsExpr_enclosed (starts_expression e he) hreads with ⟨t, more, rfl, ht⟩
  intro u hu
  cases hu
  exact startsExpr_not_greater ht

/-!
## Operands
-/

theorem operand_eq_value {t : Token} {more : List Token} (hstart : t.startsValue = true) :
    operand en (t :: more) = value en (t :: more) := by
  have hunary : t.isOneOf ["not", "-", "#", "~"] = false := by
    by_cases hkind : t.kind = .reserved
    · simp only [Token.startsValue, Token.isOneOf, hkind, Bool.or_eq_true, Bool.and_eq_true,
        List.contains_eq_mem, decide_eq_true_eq] at hstart
      have htext : t.text ∈ ["nil", "false", "true", "...", "function", "\x7b", "("] := by
        simpa using hstart
      have hapart : ∀ text ∈ ["nil", "false", "true", "...", "function", "\x7b", "("],
          text ∉ ["not", "-", "#", "~"] := by decide
      simpa [Token.isOneOf, hkind] using hapart t.text htext
    · exact isOneOf_of_kind hkind _
  exact orElse_absent (bind_absent (unaryOp_absent hunary))

theorem operand_of_value {ts rest : List Token} {e : Expr} (h : value en ts = .found e rest) :
    operand en ts = .found e rest := by
  cases ts with
  | nil => exact (orElse_absent (bind_absent rfl)).trans h
  | cons t more =>
      have hstart : t.startsValue = true := by
        cases hvalue : t.startsValue with
        | true => rfl
        | false => rw [value_absent hvalue] at h; cases h
      exact (operand_eq_value hstart).trans h

theorem operand_enclosed (H : en.Rereads style encoding bound) {e : Expr} {depth : Nat}
    {ts rest : List Token} (he : e.WellFormed encoding false) (hwrapped : e.Wrapped true)
    (hreads : Reads (enclosed true (e.pieces style depth)) ts) (hlength : ts.length ≤ bound)
    (hrest : ∀ t ∈ rest.head?, t.startsSuffix = false) :
    ∃ e', operand en (ts ++ rest) = .found e' rest ∧ e.ReadAs e' := by
  rcases suffixes_enclosed H he hwrapped hreads hlength rest with ⟨s, hs, hread⟩
  exact ⟨s.expr, operand_of_value (value_of_suffixed (suffixed_of_suffixes hs hrest)), hread⟩

theorem wrapped_of_position {e : Expr} {position : Position} :
    e.Wrapped (e.inParens || e.needsParens position) := by
  cases hparens : e.inParens || e.needsParens position with
  | true =>
      unfold Expr.Wrapped
      cases e <;> simp_all [Expr.inParens, Expr.needsParens, Expr.parenthesized]
  | false =>
      simp only [Bool.or_eq_false_iff] at hparens
      exact hparens.1

/-- An operand without parentheses is at least as tight as its position asks for. -/
theorem precedence_le_level {e : Expr} (h : e.needsParens .operand = false) :
    UnaryOp.precedence ≤ e.level := by
  cases e with
  | binary op left right =>
      simpa [Expr.needsParens, BinaryOp.needsParens, Expr.level] using h
  | _ => exact (by decide : UnaryOp.precedence ≤ beyond)

theorem operand_unary (H : en.Rereads style encoding bound) {op : UnaryOp} {e : Expr} {depth : Nat}
    {ts rest : List Token} (he : e.WellFormed encoding false)
    (hreads : Reads ((Expr.unary op e).pieces style depth) ts) (hlength : ts.length ≤ bound)
    (hrest : Bars (Expr.unary op e).edge rest) :
    ∃ e', operand en (ts ++ rest) = .found e' rest ∧ (Expr.unary op e).ReadAs e' := by
  rw [Expr.pieces, List.cons_append, reads_sign (unary_sign_reserved op)] at hreads
  rcases hreads with ⟨t, inner, rfl, ht, hinner⟩
  have hinner : Reads (enclosed (e.inParens || e.needsParens .operand) (e.pieces style depth))
      inner := by
    split at hinner
    · exact reads_gap.mp hinner
    · exact hinner
  simp only [List.length_cons] at hlength
  have hparts : (e.inParens || e.needsParens .operand) = false →
      UnaryOp.precedence ≤ e.level ∧ Bars e.edge rest := by
    intro hparens
    refine ⟨precedence_le_level (Bool.or_eq_false_iff.mp hparens).2, hrest.mono ?_⟩
    simp [Expr.edge, hparens]
  have hlevel : (Expr.unary op e).edge ≤ UnaryOp.precedence := by
    rw [Expr.edge]
    exact Nat.min_le_left _ _
  rcases H.expr he wrapped_of_position hinner (by omega) hparts (hrest.mono hlevel) with
    ⟨e', hfound, hread⟩
  refine ⟨.unary op e', ?_, congrArg (Expr.unary op) hread⟩
  refine orElse_found ?_
  refine (bind_found (unaryOp_found ht _)).trans ?_
  exact bind_found (need_found hfound)

/-!
## Operations
-/

/-- Whether reading reaches an expression by operators of at least a precedence, with some
tokens left. -/
def Operations (en : Entry) (p : Nat) (ts : List Token) (e : Expr) (rest : List Token) : Prop :=
  ∃ first mid, operand en ts = .found first mid ∧ Grows (joined en p) first mid e rest

theorem operations_of_operand {p : Nat} {ts rest : List Token} {e : Expr}
    (h : operand en ts = .found e rest) : Operations en p ts e rest :=
  ⟨e, rest, h, .refl⟩

theorem expression_of_operations {p : Nat} {ts rest : List Token} {e : Expr}
    (h : Operations en p ts e rest) (hrest : Bars p rest) :
    expression en p ts = .found e rest := by
  rcases h with ⟨first, mid, hfirst, hgrows⟩
  exact (bind_found hfirst).trans (grow_of_grows hgrows (joined_absent e hrest))

theorem Operations.join {p : Nat} {op : BinaryOp} {ts front back rest : List Token}
    {left right : Expr} (h : Operations en p ts left (front ++ back)) (hop : Spells op.sign front)
    (hback : ∀ u ∈ back.head?, u.is ">" = false) (hp : p ≤ op.precedence)
    (hright : en.expr op.rightPrecedence back = .found right rest)
    (hlength : rest.length ≤ back.length) : Operations en p ts (.binary op left right) rest := by
  rcases h with ⟨first, mid, hfirst, hgrows⟩
  refine ⟨first, mid, hfirst, hgrows.last ?_ ?_⟩
  · refine (bind_found (binaryOp_found hop hback)).trans ?_
    rw [if_pos hp]
    exact bind_found (need_found hright)
  · rcases front_of_sign hop with ⟨t, more, rfl, _⟩
    simp only [List.cons_append, List.length_cons, List.length_append]
    omega

theorem reads_operator {op : BinaryOp} {ps : List Piece} {ts : List Token}
    (h : Reads (spacedSign op.sign ++ ps) ts) :
    ∃ front back, ts = front ++ back ∧ Spells op.sign front ∧ Reads ps back := by
  have hgap := reads_gap.mp h
  rcases reads_spelled.mp hgap with ⟨front, back, rfl, hfront, hback⟩
  exact ⟨front, back, rfl, hfront, reads_gap.mp hback⟩

theorem rightPrecedence_le_level {op : BinaryOp} {right : Expr}
    (h : right.needsParens (.right op) = false)
    (hplain : op.isRightAssociative = true ∨ right.hasPrecedence op.precedence = false) :
    op.rightPrecedence ≤ right.level := by
  cases right with
  | binary inner first second =>
      simp only [Expr.needsParens, BinaryOp.needsParens, Expr.hasPrecedence, beq_eq_false_iff_ne,
        Expr.level, BinaryOp.rightPrecedence] at h hplain ⊢
      split at h
      · rename_i hsame
        rcases hplain with hplain | hplain
        · rw [if_pos hplain]
          omega
        · exact absurd hsame hplain
      · simp only [decide_eq_false_iff_not] at h
        split <;> omega
  | _ => exact Nat.le_of_lt (precedence_lt_beyond op)

theorem hasPrecedence_stripped (e : Expr) (precedence : Nat) :
    (e.stripped regrouped).hasPrecedence precedence = e.hasPrecedence precedence := by
  cases e with
  | binary op left right =>
      rw [Expr.stripped, regrouped_eq_grouped, grouped]
      split
      · rfl
      · rcases attach_isBinary op (left.stripped regrouped) (right.stripped regrouped) with
          ⟨inner, first, second, heq, hprecedence⟩
        rw [heq, Expr.hasPrecedence, hprecedence, Expr.hasPrecedence]
  | _ => rfl

/-- A left operand without parentheses is at least as tight as the operator. -/
theorem precedence_le_left {op : BinaryOp} {e : Expr} (h : e.needsParens (.left op) = false) :
    op.precedence ≤ e.level := by
  cases e with
  | binary inner left right =>
      simp only [Expr.needsParens, BinaryOp.needsParens, Expr.level] at h ⊢
      split at h
      · omega
      · simpa using h
  | _ => exact Nat.le_trans (precedence_le_right op) (Nat.le_of_lt (precedence_lt_beyond op))

theorem operations_whole (H : en.Rereads style encoding bound) {p depth : Nat} {right : Expr}
    (hright : right.WellFormed encoding false) {op : BinaryOp} {parens : Bool}
    (hwrapped : right.Wrapped parens) (hlevel : parens = false → op.rightPrecedence ≤ right.level)
    (hplain : parens = false → op.isRightAssociative = false →
      right.hasPrecedence op.precedence = false)
    {all front ts rest : List Token} {left : Expr} (hfront : Spells op.sign front)
    (hreads : Reads (enclosed parens (right.pieces style depth)) ts) (hlength : ts.length < bound)
    (hp : p ≤ op.precedence) (hleft : Operations en p all left (front ++ (ts ++ rest)))
    (hrest : Bars (min op.rightPrecedence (if parens then beyond else right.edge)) rest) :
    ∃ e', Operations en p all e' rest ∧
      e'.stripped .binary =
        grouped op parens (left.stripped .binary) (right.stripped regrouped) := by
  have hparts : parens = false → op.rightPrecedence ≤ right.level ∧ Bars right.edge rest := by
    intro hparens
    refine ⟨hlevel hparens, hrest.mono ?_⟩
    simp [hparens]
  rcases H.expr hright hwrapped hreads hlength hparts (hrest.mono (Nat.min_le_left _ _)) with
    ⟨right', hfound, hread⟩
  refine ⟨_, hleft.join hfront (head_not_greater hright hreads rest) hp hfound (by simp), ?_⟩
  rw [Expr.stripped, hread]
  unfold grouped
  split
  · rfl
  · rename_i hopen
    simp only [Bool.or_eq_true, not_or, Bool.not_eq_true] at hopen
    rw [attach_of_ne]
    rw [hasPrecedence_stripped]
    exact hplain hopen.1 hopen.2

/-!
A right operand whose operator is as tight, to the left, and stands without parentheses is
read as two further operands.
-/

section Chains

variable {op inner : BinaryOp} (hprecedence : inner.precedence = op.precedence)
  (hassociative : op.isRightAssociative = false)

include hprecedence hassociative

theorem bars_chain {first : Expr} {sign back : List Token} (hsign : Spells inner.sign sign)
    (hback : ∀ u ∈ back.head?, u.is ">" = false) :
    Bars (min op.rightPrecedence
      (if first.inParens || first.needsParens (.left inner) then beyond else first.edge))
      (sign ++ back) := by
  refine bars_operator hsign hback (Nat.lt_min.mpr ⟨?_, ?_⟩)
  · simp [BinaryOp.rightPrecedence, hassociative, hprecedence]
  · split
    · exact Nat.lt_of_le_of_lt (precedence_le_right inner) (precedence_lt_beyond inner)
    · rename_i hopen
      simp only [Bool.or_eq_true, not_or, Bool.not_eq_true] at hopen
      exact edge_gt_left hopen.2

theorem position_chain {first : Expr}
    (hopen : (first.inParens || first.needsParens (.left inner)) = false) :
    first.needsParens (.right op) = false ∨
      op.isRightAssociative = false ∧ first.hasPrecedence op.precedence = true := by
  cases hfirst : first.hasPrecedence op.precedence with
  | true => exact Or.inr ⟨hassociative, rfl⟩
  | false =>
      rw [← needsParens_side hprecedence hassociative hfirst]
      exact Or.inl (Bool.or_eq_false_iff.mp hopen).2

/-- The first of two further operands is attached: an equally tight operation goes without
parentheses on the left. -/
theorem grouped_first (left first : Expr) :
    grouped op (first.inParens || first.needsParens (.left inner)) left
      (first.stripped regrouped) = attach op left (first.stripped regrouped) := by
  rw [grouped, hassociative, Bool.or_false]
  split
  · rename_i hclosed
    rw [attach_of_ne]
    rw [hasPrecedence_stripped]
    cases first with
    | binary other a b =>
        cases heq : decide (other.precedence = op.precedence) with
        | false => simpa [Expr.hasPrecedence] using heq
        | true =>
            have heq := of_decide_eq_true heq
            have hother := isRightAssociative_of_precedence heq
            simp [Expr.inParens, Expr.needsParens, BinaryOp.needsParens, heq, hprecedence, hother,
              hassociative] at hclosed
    | _ => rfl
  · rfl

theorem grouped_chain (parens : Bool) (left first second : Expr) :
    grouped inner parens (attach op left first) second =
      grouped op false left (grouped inner parens first second) := by
  have hinner := isRightAssociative_of_precedence hprecedence
  rw [hassociative] at hinner
  simp only [grouped, hinner, hassociative, Bool.or_false, Bool.false_eq_true, if_false]
  split
  · exact (attach_of_precedence hprecedence).symm
  · exact (attach_attach _ _ hprecedence _).symm

end Chains

/-- An operator and its right operand behind an expression that has been reached. -/
theorem operations_join (H : en.Rereads style encoding bound) {p depth : Nat} : (right : Expr) →
    right.WellFormed encoding false → ∀ {op : BinaryOp} {parens : Bool}, right.Wrapped parens →
    (parens = false → right.needsParens (.right op) = false ∨
      op.isRightAssociative = false ∧ right.hasPrecedence op.precedence = true) →
    ∀ {all front ts rest : List Token} {left : Expr}, Spells op.sign front →
    Reads (enclosed parens (right.pieces style depth)) ts → ts.length < bound →
    p ≤ op.precedence → Operations en p all left (front ++ (ts ++ rest)) →
    Bars (min op.rightPrecedence (if parens then beyond else right.edge)) rest →
    ∃ e', Operations en p all e' rest ∧
      e'.stripped .binary =
        grouped op parens (left.stripped .binary) (right.stripped regrouped) := by
  intro right hright op parens hwrapped hposition all front ts rest left hfront hreads hlength hp
    hleft hrest
  by_cases hapart : parens = false ∧ op.isRightAssociative = false ∧
      right.hasPrecedence op.precedence = true
  · rcases hapart with ⟨rfl, hassociative, hsame⟩
    cases right with
    | binary inner first second =>
        have hprecedence : inner.precedence = op.precedence := by
          simpa [Expr.hasPrecedence] using hsame
        rw [show enclosed false ((Expr.binary inner first second).pieces style depth) =
          (Expr.binary inner first second).pieces style depth from rfl, binary_pieces,
          List.append_assoc] at hreads
        rcases reads_append.mp hreads with ⟨tsFirst, more, rfl, htsFirst, hmore⟩
        rcases reads_operator hmore with ⟨sign, tsSecond, rfl, hsign, htsSecond⟩
        simp only [List.length_append] at hlength
        simp only [List.append_assoc] at hleft
        rcases operations_join H first hright.1 wrapped_of_position
          (position_chain hprecedence hassociative) hfront htsFirst (by omega) hp hleft
          (bars_chain hprecedence hassociative hsign (head_not_greater hright.2 htsSecond rest))
          with ⟨e₁, he₁, hread₁⟩
        have hbars : Bars (min inner.rightPrecedence
            (if second.inParens || second.needsParens (.right inner) then beyond
              else second.edge)) rest := by
          refine hrest.mono ?_
          rw [if_neg (by simp), Expr.edge]
          exact Nat.min_le_right _ _
        rcases operations_join H second hright.2 wrapped_of_position
          (fun hopen => Or.inl (Bool.or_eq_false_iff.mp hopen).2) hsign htsSecond (by omega)
          (hprecedence ▸ hp) he₁ hbars with ⟨e₂, he₂, hread₂⟩
        refine ⟨e₂, he₂, ?_⟩
        rw [hread₂, hread₁, grouped_first hprecedence hassociative,
          grouped_chain hprecedence hassociative, Expr.stripped, regrouped_eq_grouped,
          inParens_stripped keepsLayout_regrouped, needsParens_stripped keepsLayout_regrouped]
    | _ => simp [Expr.hasPrecedence] at hsame
  · have hplain : parens = false →
        op.isRightAssociative = true ∨ right.hasPrecedence op.precedence = false := by
      intro hparens
      cases hassociative : op.isRightAssociative with
      | true => exact Or.inl rfl
      | false =>
          cases hsame : right.hasPrecedence op.precedence with
          | false => exact Or.inr rfl
          | true => exact absurd ⟨hparens, hassociative, hsame⟩ hapart
    refine operations_whole H hright hwrapped ?_ ?_ hfront hreads hlength hp hleft hrest
    · intro hparens
      refine rightPrecedence_le_level ?_ (hplain hparens)
      rcases hposition hparens with hopen | hsame
      · exact hopen
      · exact absurd ⟨hparens, hsame⟩ hapart
    · intro hparens hassociative
      rcases hplain hparens with hright | hsame
      · rw [hassociative] at hright
        cases hright
      · exact hsame
  termination_by right => sizeOf right

theorem operations_found (H : en.Rereads style encoding bound) {depth : Nat} : (e : Expr) →
    e.WellFormed encoding false → e.inParens = false → ∀ {ts rest : List Token} {p : Nat},
    Reads (e.pieces style depth) ts → ts.length ≤ bound → p ≤ e.level → Bars e.edge rest →
    ∃ e', Operations en p (ts ++ rest) e' rest ∧ e.ReadAs e'
  | .binary op left right, he, _, ts, rest, p, hreads, hlength, hp, hrest => by
      rw [binary_pieces, List.append_assoc] at hreads
      rcases reads_append.mp hreads with ⟨tsLeft, more, rfl, htsLeft, hmore⟩
      rcases reads_operator hmore with ⟨sign, tsRight, rfl, hsign, htsRight⟩
      simp only [List.length_append] at hlength
      have hnext := head_not_greater he.2 htsRight rest
      have hpositive : 0 < sign.length := by
        rcases front_of_sign hsign with ⟨t, more, rfl, _⟩
        simp
      have hlevel : p ≤ op.precedence := hp
      have hleft : ∃ left', Operations en p (tsLeft ++ (sign ++ (tsRight ++ rest))) left'
          (sign ++ (tsRight ++ rest)) ∧ left.ReadAs left' := by
        cases hparens : left.inParens || left.needsParens (.left op) with
        | true =>
            rw [hparens] at htsLeft
            have hwrapped : left.Wrapped true := hparens ▸ wrapped_of_position
            have hsuffix := (bars_operator hsign hnext (Nat.lt_succ_self _)).suffix
            rcases operand_enclosed H he.1 hwrapped htsLeft (by omega) hsuffix with
              ⟨left', hfound, hread⟩
            exact ⟨left', operations_of_operand hfound, hread⟩
        | false =>
            rw [hparens] at htsLeft
            simp only [Bool.or_eq_false_iff] at hparens
            refine operations_found H left he.1 hparens.1 htsLeft (by omega) ?_ ?_
            · exact Nat.le_trans hlevel (precedence_le_left hparens.2)
            · exact bars_operator hsign hnext (edge_gt_left hparens.2)
      rcases hleft with ⟨left', hleft', hleftRead⟩
      have hbars : Bars (min op.rightPrecedence
          (if right.inParens || right.needsParens (.right op) then beyond else right.edge))
          rest := by
        rw [Expr.edge] at hrest
        exact hrest
      rcases operations_join H right he.2 wrapped_of_position
        (fun hopen => Or.inl (Bool.or_eq_false_iff.mp hopen).2) hsign htsRight (by omega) hlevel
        hleft' hbars with ⟨e', he', hread⟩
      refine ⟨e', by simpa using he', ?_⟩
      rw [Expr.ReadAs, hread, hleftRead, Expr.stripped, regrouped_eq_grouped,
        inParens_stripped keepsLayout_regrouped, needsParens_stripped keepsLayout_regrouped]
  | .unary op operand, he, _, ts, rest, p, hreads, hlength, _, hrest => by
      have hoperand : operand.WellFormed encoding false := he
      rcases operand_unary H hoperand hreads hlength hrest with ⟨e', hfound, hread⟩
      exact ⟨e', operations_of_operand hfound, hread⟩
  | .name _, he, hparens, ts, rest, p, hreads, hlength, _, hrest
  | .string _, he, hparens, ts, rest, p, hreads, hlength, _, hrest
  | .number .., he, hparens, ts, rest, p, hreads, hlength, _, hrest
  | .boolean _, he, hparens, ts, rest, p, hreads, hlength, _, hrest
  | .nil, he, hparens, ts, rest, p, hreads, hlength, _, hrest
  | .vararg .., he, hparens, ts, rest, p, hreads, hlength, _, hrest
  | .function .., he, hparens, ts, rest, p, hreads, hlength, _, hrest
  | .table _, he, hparens, ts, rest, p, hreads, hlength, _, hrest
  | .member .., he, hparens, ts, rest, p, hreads, hlength, _, hrest
  | .index .., he, hparens, ts, rest, p, hreads, hlength, _, hrest
  | .call .., he, hparens, ts, rest, p, hreads, hlength, _, hrest => by
      rcases value_found H he rfl (by simp) hparens hreads hlength hrest.suffix with
        ⟨e', hfound, hread⟩
      exact ⟨e', operations_of_operand (operand_of_value hfound), hread⟩

theorem expression_found (H : en.Rereads style encoding bound) {e : Expr} {parens : Bool}
    {depth p : Nat} {ts rest : List Token} (he : e.WellFormed encoding false)
    (hwrapped : e.Wrapped parens) (hreads : Reads (enclosed parens (e.pieces style depth)) ts)
    (hlength : ts.length ≤ bound) (hopen : parens = false → p ≤ e.level ∧ Bars e.edge rest)
    (hrest : Bars p rest) :
    ∃ e', expression en p (ts ++ rest) = .found e' rest ∧ e.ReadAs e' := by
  have hreached : ∃ e', Operations en p (ts ++ rest) e' rest ∧ e.ReadAs e' := by
    cases parens with
    | true =>
        rcases operand_enclosed H he hwrapped hreads hlength hrest.suffix with ⟨e', hfound, hread⟩
        exact ⟨e', operations_of_operand hfound, hread⟩
    | false =>
        exact operations_found H e he hwrapped hreads hlength (hopen rfl).1 (hopen rfl).2
  rcases hreached with ⟨e', he', hread⟩
  exact ⟨e', expression_of_operations he' hrest, hread⟩

theorem expression_named {t u : Token} {rest : List Token} {p : Nat} (ht : t.kind = .name)
    (hu : u.is "=" = true) :
    ∃ e, expression en p (t :: u :: rest) = .found e (u :: rest) := by
  have hstop : u.isStop = true := (isStop_of_is hu).trans (by decide)
  have hbars := fun q => bars_of_stop hstop q rest
  have hparen : t.is "(" = false := is_eq_false_of_kind (by simp [ht])
  have hname : name (t :: u :: rest) = .found { text := t.text } (u :: rest) :=
    bind_found (kind_found ht _)
  have hstart : suffixStart en (t :: u :: rest) =
      .found ⟨.name { text := t.text }, .name⟩ (u :: rest) :=
    (orElse_absent (bind_absent (bind_absent (sign_absent hparen)))).trans (bind_found hname)
  have hsuffixed := suffixed_of_suffixes ⟨_, _, hstart, .refl⟩ (hbars p).suffix
  have hoperand := operand_of_value (value_of_suffixed hsuffixed)
  exact ⟨_, expression_of_operations (operations_of_operand hoperand) (hbars p)⟩

end Expressions

end Lua
end LuaBundle
