import LuaBundle.Proofs.Grammar.Operators

/-!
# Reading printed expressions

The tokens of a printed expression are read as the expression again, without lines and marks
and in the groups of its layout.  An entry is given that does so for everything shorter;
here are the expressions without operators.
-/

namespace LuaBundle
namespace Lua

open Text
open LuaBundle.Lua.Parser

/-!
## What is read

A tree is read again in the groups of its layout, with the parentheses that the layout gives
it.
-/

/-- Whether an expression is read as another one. -/
def Expr.ReadAs (e e' : Expr) : Prop :=
  e'.stripped .binary = e.stripped regrouped

/-- Whether an expression is the one that is meant when it is printed in parentheses or
without. -/
def Expr.Wrapped (parens : Bool) (e : Expr) : Prop :=
  if parens then e.parenthesized = e else e.inParens = false

def Token.closesBlock (t : Token) : Bool :=
  t.kind == .finish || t.isOneOf ["end", "else", "elseif", "until"]

def Stops (rest : List Token) : Prop :=
  ∃ t more, rest = t :: more ∧ t.isStop = true

def Closes (rest : List Token) : Prop :=
  ∃ t more, rest = t :: more ∧ t.closesBlock = true

/-- An entry that reads printed trees of fewer tokens than a bound. -/
structure Entry.Rereads (style : Style) (encoding : Encoding) (en : Entry) (bound : Nat) :
    Prop where
  expr : ∀ {e : Expr} {parens depth ts rest p}, e.WellFormed encoding false → e.Wrapped parens →
    Reads (enclosed parens (e.pieces style depth)) ts → ts.length < bound →
    (parens = false → p ≤ e.level ∧ Bars e.edge rest) → Bars p rest →
    ∃ e', en.expr p (ts ++ rest) = .found e' rest ∧ e.ReadAs e'
  absent : ∀ {t : Token} {rest p}, 0 < bound →
      t.startsExpr = false → en.expr p (t :: rest) = .absent
  named : ∀ {t u : Token} {rest p}, 0 < bound → t.kind = .name → u.is "=" = true →
    ∃ e, en.expr p (t :: u :: rest) = .found e (u :: rest)
  block : ∀ {body depth ts rest}, blockWellFormed encoding body →
    Reads (blockPieces style depth false body) ts → ts.length < bound → Closes rest →
    ∃ body', en.block (ts ++ rest) = .found body' rest ∧
      strippedBlock .binary body' = strippedBlock regrouped body

theorem Stops.bars {rest : List Token} (h : Stops rest) (p : Nat) : Bars p rest := by
  rcases h with ⟨t, more, rfl, ht⟩
  exact bars_of_stop ht p more

theorem Stops.suffix {rest : List Token} (h : Stops rest) :
    ∀ t ∈ rest.head?, t.startsSuffix = false :=
  (h.bars 0).suffix

theorem stops_of_is {t : Token} {text : String} (more : List Token) (h : t.is text = true)
    (hstop : (!(["(", "\x7b", ":", "[", "."].contains text)
      && !(BinaryOp.all.map BinaryOp.sign).contains text) = true) : Stops (t :: more) :=
  ⟨t, more, rfl, (isStop_of_is h).trans hstop⟩

theorem closes_of_is {t : Token} {text : String} (more : List Token) (h : t.is text = true)
    (hclose : ["end", "else", "elseif", "until"].contains text = true) : Closes (t :: more) := by
  refine ⟨t, more, rfl, ?_⟩
  rw [Token.closesBlock, isOneOf_of_is h, hclose, Bool.or_true]

theorem exprRows_eq_map (style : Style) (depth : Nat) (es : List Expr) :
    exprRows style depth es = es.map fun e => enclosed e.inParens (e.pieces style depth) := by
  induction es with
  | nil => rfl
  | cons e rest ih => rw [exprRows, ih, List.map_cons]

theorem fieldRows_eq_map (style : Style) (depth : Nat) (fs : List Field) :
    fieldRows style depth fs = fs.map (Field.pieces style depth) := by
  induction fs with
  | nil => rfl
  | cons f rest ih => rw [fieldRows, ih, List.map_cons]

theorem strippedExprs_of_readAs {es es' : List Expr} (h : List.Forall₂ Expr.ReadAs es es') :
    strippedExprs .binary es' = strippedExprs regrouped es := by
  induction h with
  | nil => rfl
  | cons he _ ih => rw [strippedExprs, strippedExprs, he, ih]

/-!
## Parentheses
-/

def Expr.opened : Expr → Expr
  | .call base arguments _ line => .call base arguments false line
  | .vararg _ line => .vararg false line
  | e => e

theorem opened_inParens (e : Expr) : e.opened.inParens = false := by
  cases e <;> rfl

theorem opened_pieces (e : Expr) (style : Style) (depth : Nat) :
    e.opened.pieces style depth = e.pieces style depth := by
  cases e with
  | call base arguments inParens line => rw [Expr.opened, Expr.pieces, Expr.pieces]
  | vararg inParens line => rw [Expr.opened, Expr.pieces, Expr.pieces]
  | _ => rfl

theorem opened_wellFormed {encoding : Encoding} {callee : Bool} {e : Expr}
    (h : e.WellFormed encoding callee) : e.opened.WellFormed encoding callee := by
  cases e <;> exact h

theorem opened_parenthesized (e : Expr) : e.opened.parenthesized = e.parenthesized := by
  cases e <;> rfl

theorem one_le_level (e : Expr) : 1 ≤ e.level := by
  cases e with
  | binary op left right => exact (by cases op <;> decide : 1 ≤ op.precedence)
  | _ => exact (by decide : 1 ≤ beyond)

theorem parenthesized_stripped {join : BinaryOp → Expr → Expr → Expr} (keeps : KeepsLayout join)
    (e : Expr) : e.parenthesized.stripped join = (e.stripped join).parenthesized := by
  cases e with
  | binary op left right =>
      rcases keeps.isBinary op (left.stripped join) (right.stripped join) with ⟨_, _, _, h⟩
      rw [Expr.parenthesized, Expr.stripped, h]
      · rfl
      · simp
      · simp
  | _ => rfl

/-- What an opened expression is read as stands for the expression once it is put back into
parentheses. -/
theorem readAs_parenthesized {e e' : Expr} (he : e.parenthesized = e) (h : e.opened.ReadAs e') :
    e.ReadAs e'.parenthesized := by
  have hkeep := parenthesized_stripped keepsLayout_regrouped e.opened
  unfold Expr.ReadAs at h ⊢
  rw [parenthesized_stripped keepsLayout_binary, h, ← hkeep, opened_parenthesized, he]

section Values

variable {style : Style} {encoding : Encoding} {en : Entry} {bound : Nat}

theorem Entry.Rereads.free (H : en.Rereads style encoding bound) {e : Expr} {depth : Nat}
    {ts rest : List Token} (he : e.WellFormed encoding false)
    (hreads : Reads (enclosed e.inParens (e.pieces style depth)) ts) (hlength : ts.length < bound)
    (hstops : Stops rest) : ∃ e', en.expr 1 (ts ++ rest) = .found e' rest ∧ e.ReadAs e' := by
  refine H.expr he ?_ hreads hlength (fun _ => ⟨one_le_level e, hstops.bars _⟩) (hstops.bars 1)
  unfold Expr.Wrapped
  split
  · cases e <;> first | rfl | simp_all [Expr.inParens, Expr.parenthesized]
  · simp_all

theorem paren_found (H : en.Rereads style encoding bound) {e : Expr} {depth : Nat}
    {t u : Token} {inner rest : List Token} (he : e.WellFormed encoding false)
    (hwrapped : e.Wrapped true) (ht : t.is "(" = true) (hu : u.is ")" = true)
    (hreads : Reads (e.pieces style depth) inner) (hlength : inner.length < bound) :
    ∃ e', paren en (t :: (inner ++ u :: rest)) = .found e' rest ∧ e.ReadAs e' := by
  have hstops : Stops (u :: rest) := stops_of_is _ hu (by decide)
  have hopened : Reads (enclosed e.opened.inParens (e.opened.pieces style depth)) inner := by
    rw [opened_inParens, opened_pieces]
    exact hreads
  rcases H.free (opened_wellFormed he) hopened hlength hstops with ⟨e', hfound, hread⟩
  refine ⟨e'.parenthesized, ?_, readAs_parenthesized hwrapped hread⟩
  refine (bind_found (sign_found ht _)).trans ?_
  refine (bind_found (need_found hfound)).trans ?_
  exact bind_found (need_found (sign_found hu rest))

/-!
## Lists of expressions
-/

theorem stops_comma (t : Token) (more : List Token) (h : t.is "," = true) : Stops (t :: more) :=
  stops_of_is _ h (by decide)

theorem expressions_found (H : en.Rereads style encoding bound) {es : List Expr} {depth : Nat}
    {ts : List Token} {t : Token} (hes : exprsWellFormed encoding es)
    (hreads : Reads (commaSeparated (exprRows style depth es)) ts) (hlength : ts.length < bound)
    (hstop : t.isStop = true) (hstart : t.startsExpr = false) (hcomma : t.is "," = false)
    (more : List Token) :
    ∃ es', expressions en (ts ++ t :: more) = .found es' (t :: more) ∧
      strippedExprs .binary es' = strippedExprs regrouped es := by
  cases es with
  | nil =>
      cases hreads
      refine ⟨[], ?_, rfl⟩
      exact bind_found (optional_absent (H.absent hlength hstart))
  | cons e rest =>
      have hrest := exprsWellFormed_iff.mp hes.2
      rw [exprRows, commaSeparated_cons, exprRows_eq_map] at hreads
      rcases reads_append.mp hreads with ⟨front, back, rfl, hfront, hback⟩
      simp only [List.length_append] at hlength
      have hstops : Stops (t :: more) := ⟨t, more, rfl, hstop⟩
      have hfollows := follows_commas Stops stops_comma hstops hback
      rcases H.free hes.1 hfront (by omega) hfollows with ⟨e', hfound, hread⟩
      have hitem : ∀ item ∈ rest, ∀ ts more,
          Reads (enclosed item.inParens (item.pieces style depth)) ts → ts.length < bound →
          Stops more →
            ∃ a, Parser.need (en.expr 1) (ts ++ more) = .found a more ∧ item.ReadAs a := by
        intro item hitem ts more hts hlength hmore
        rcases H.free (hrest item hitem) hts hlength hmore with ⟨a, ha, hgood⟩
        exact ⟨a, need_found ha, hgood⟩
      rcases manys_commas Stops stops_comma hitem hstops (bind_absent (sign_absent hcomma)) hback
        (by omega) with ⟨es', hmanys, hgoods⟩
      refine ⟨e' :: es', ?_, strippedExprs_of_readAs (.cons hread hgoods)⟩
      rw [List.append_assoc]
      refine (bind_found (optional_found hfound)).trans ?_
      exact bind_found (many_of_manys hmanys)

theorem values_found (H : en.Rereads style encoding bound) {es : List Expr} {depth : Nat}
    {ts rest : List Token} (hes : exprsWellFormed encoding es) (hne : es ≠ [])
    (hreads : Reads (commaSeparated (exprRows style depth es)) ts) (hlength : ts.length < bound)
    (hstops : Stops rest) (hcomma : sign "," rest = .absent) :
    ∃ es', separated (en.expr 1) (ts ++ rest) = .found es' rest ∧
      strippedExprs .binary es' = strippedExprs regrouped es := by
  rw [exprRows_eq_map] at hreads
  have hitem : ∀ item ∈ es, ∀ ts more,
      Reads (enclosed item.inParens (item.pieces style depth)) ts → ts.length < bound →
      Stops more → ∃ a, en.expr 1 (ts ++ more) = .found a more ∧ item.ReadAs a := by
    intro item hitem ts more hts hlength hmore
    exact H.free (exprsWellFormed_iff.mp hes item hitem) hts hlength hmore
  rcases separated_found stops_comma hitem hstops (bind_absent hcomma) hne hreads hlength with
    ⟨es', hfound, hgoods⟩
  exact ⟨es', hfound, strippedExprs_of_readAs hgoods⟩

end Values

end Lua
end LuaBundle
