import LuaBundle.Proofs.Grammar.Rereads
import Mathlib.Algebra.GroupWithZero.Nat

/-!
# Opening parentheses

A tree is written with no more opening parentheses than it was read with.  They are counted
among pieces and among tokens, and a parser spends them: those that it consumes, with some
that are paid for already, are as many as what it finds costs.  For the parsers that are put
together from others, this follows from the costs of the others.
-/

namespace LuaBundle
namespace Lua

open LuaBundle.Lua.Parser

/-!
## Counting
-/

def Piece.opens : Piece → Bool
  | .token text | .numeral text => text == "("
  | .gap | .newline _ => false

def openings (ps : List Piece) : Nat :=
  ps.countP Piece.opens

def openingTokens (ts : List Token) : Nat :=
  ts.countP (·.text == "(")

section Counting

variable {text : String} {ps qs : List Piece}

@[simp] theorem openings_nil : openings [] = 0 :=
  rfl

@[simp] theorem openings_append : openings (ps ++ qs) = openings ps + openings qs :=
  List.countP_append

@[simp] theorem openings_token :
    openings (.token text :: ps) = (text == "(").toNat + openings ps := by
  unfold openings
  rw [List.countP_cons, Nat.add_comm]
  cases h : text == "(" <;> simp [Piece.opens, h]

@[simp] theorem openings_numeral :
    openings (.numeral text :: ps) = (text == "(").toNat + openings ps := by
  unfold openings
  rw [List.countP_cons, Nat.add_comm]
  cases h : text == "(" <;> simp [Piece.opens, h]

@[simp] theorem openings_gap : openings (.gap :: ps) = openings ps :=
  rfl

@[simp] theorem openings_newline (depth : Nat) : openings (.newline depth :: ps) = openings ps :=
  rfl

@[simp] theorem openings_enclosed (parens : Bool) :
    openings (enclosed parens ps) = parens.toNat + openings ps := by
  cases parens <;> simp [enclosed]

@[simp] theorem openings_operator (op : BinaryOp) : openings (spacedSign op.sign) = 0 := by
  cases op <;> rfl

theorem openingTokens_cons (t : Token) (ts : List Token) :
    openingTokens (t :: ts) = (t.text == "(").toNat + openingTokens ts := by
  unfold openingTokens
  rw [List.countP_cons, Nat.add_comm]
  cases t.text == "(" <;> rfl

theorem openingTokens_append (front ts : List Token) :
    openingTokens (front ++ ts) = openingTokens front + openingTokens ts :=
  List.countP_append

theorem Spells.openings {front : List Token} (h : Spells text front) :
    openingTokens front = (text == "(").toNat := by
  cases h with
  | word => rw [openingTokens_cons]; rfl
  | shift ht hu =>
      rw [openingTokens_cons, openingTokens_cons, (is_iff.mp ht).2, (is_iff.mp hu).2]
      rfl

theorem Reads.openings {ts : List Token} (h : Reads ps ts) :
    openingTokens ts = openings ps := by
  induction h with
  | nil => rfl
  | token h _ ih => rw [openingTokens_append, h.openings, ih, openings_token]
  | numeral h _ ih => rw [openingTokens_append, h.openings, ih, openings_numeral]
  | gap _ ih => exact ih
  | newline _ ih => exact ih

end Counting

/-!
## Rows
-/

section Rows

variable {style : Style} {depth : Nat}

theorem openings_flatMap {f : α → List Piece} (items : List α) :
    openings (items.flatMap f) = (items.map fun a => openings (f a)).sum :=
  List.countP_flatMap

theorem openings_commaSeparated (rows : List (List Piece)) :
    openings (commaSeparated rows) = (rows.map openings).sum := by
  cases rows with
  | nil => rfl
  | cons row rows =>
      rw [commaSeparated_cons, openings_append, openings_flatMap, List.map_cons, List.sum_cons]
      simp [commaPieces]

theorem openings_tight (rows : List (List Piece)) :
    openings ([Piece.token ","].intercalate rows) = (rows.map openings).sum := by
  induction rows with
  | nil => rfl
  | cons row rows ih =>
      cases rows with
      | nil => simp [List.intercalate]
      | cons next rows =>
          rw [List.intercalate_cons_cons, openings_append, openings_append, ih]
          simp

theorem openings_table (rows : List (List Piece)) :
    openings (tablePieces style depth rows) = (rows.map openings).sum := by
  cases rows with
  | nil => cases style <;> rfl
  | cons row rows =>
      cases style with
      | pretty => simp [tablePieces, openings_flatMap]
      | compact => simp [tablePieces, openings_tight]

def rowOpenings (style : Style) (depth : Nat) (e : Expr) : Nat :=
  e.inParens.toNat + openings (e.pieces style depth)

theorem openings_row (e : Expr) :
    openings (enclosed e.inParens (e.pieces style depth)) = rowOpenings style depth e :=
  openings_enclosed _

theorem openings_exprs (es : List Expr) :
    openings (commaSeparated (exprRows style depth es)) =
      (es.map (rowOpenings style depth)).sum := by
  rw [openings_commaSeparated, exprRows_eq_map, List.map_map]
  exact congrArg List.sum (List.map_congr_left fun e _ => openings_row e)

theorem openings_fields (fs : List Field) :
    openings (tablePieces style depth (fieldRows style (depth + 1) fs)) =
      (fs.map fun f => openings (f.pieces style (depth + 1))).sum := by
  rw [openings_table, fieldRows_eq_map, List.map_map]
  rfl

theorem openings_names (vars : List Name) :
    openings (namePieces vars) = (vars.map fun n => (n.text == "(").toNat).sum := by
  rw [namePieces, openings_commaSeparated, List.map_map]
  exact congrArg List.sum (List.map_congr_left fun n _ => openings_token)

theorem openings_option (o : Option Expr) :
    openings (optionPieces style depth o) = (o.toList.map (rowOpenings style depth)).sum := by
  cases o <;> simp [optionPieces, rowOpenings]

theorem openings_block (follows : Bool) (body : List Stat) :
    openings (blockPieces style depth follows body) =
      (body.map fun s => openings (s.pieces style depth)).sum := by
  induction body generalizing follows with
  | nil => rfl
  | cons s rest ih =>
      rw [blockPieces, openings_append, ih, List.map_cons, List.sum_cons]
      cases follows && s.startsWithParen <;> simp

theorem openings_closedBody (closing : String) (body : List Stat) :
    openings (closedBody depth closing body (blockPieces style (depth + 1) false body)) =
      (body.map fun s => openings (s.pieces style (depth + 1))).sum +
        (closing == "(").toNat := by
  cases body with
  | nil => simp [closedBody]
  | cons s rest => simp [closedBody, openings_block]

theorem openings_clauses (clauses : List Clause) :
    openings (clausePieces style depth clauses) =
      (clauses.map fun c => openings (c.pieces style depth)).sum := by
  induction clauses with
  | nil => rfl
  | cons c rest ih => rw [clausePieces, openings_append, ih, List.map_cons, List.sum_cons]

end Rows

/-!
## Spending
-/

/-- A parser that spends what it finds costs, less what is paid for already. -/
structure Spends (paid : Nat) (p : Parser α) (cost : α → Nat) : Prop where
  run : ∀ {ts a rest}, p ts = .found a rest →
    openingTokens rest + cost a ≤ openingTokens ts + paid

section Combinators

variable {paid : Nat} {cost : α → Nat} {total : β → Nat}

theorem spends_pure {a : α} (h : cost a ≤ paid) : Spends paid (pure a : Parser α) cost := by
  constructor
  intro ts b rest hrun
  cases hrun
  exact Nat.add_le_add_left h _

theorem Spends.mono {p : Parser α} {less : α → Nat} (hp : Spends paid p cost)
    (h : ∀ a, less a ≤ cost a) : Spends paid p less := by
  constructor
  intro ts a rest hrun
  exact (Nat.add_le_add_left (h a) _).trans (hp.run hrun)

theorem Spends.bind {p : Parser α} {f : α → Parser β} (hp : Spends 0 p cost)
    (hf : ∀ a, Spends (paid + cost a) (f a) total) : Spends paid (p >>= f) total := by
  constructor
  intro ts b rest hrun
  rcases found_of_bind hrun with ⟨a, mid, hfirst, hmore⟩
  have hcost := hp.run hfirst
  have htotal := (hf a).run hmore
  omega

theorem Spends.orElse {p q : Parser α} (hp : Spends paid p cost) (hq : Spends paid q cost) :
    Spends paid (p <|> q) cost := by
  constructor
  intro ts a rest hrun
  rcases found_of_orElse hrun with hfirst | ⟨_, hsecond⟩
  · exact hp.run hfirst
  · exact hq.run hsecond

theorem spends_nothing : Spends paid (nothing : Parser α) cost := by
  constructor
  intro ts a rest hrun
  cases hrun

theorem spends_fail : Spends paid (fail : Parser α) cost := by
  constructor
  intro ts a rest hrun
  cases hrun

theorem Spends.need {p : Parser α} (hp : Spends paid p cost) :
    Spends paid (Parser.need p) cost :=
  ⟨fun hrun => hp.run (found_of_need hrun)⟩

theorem Spends.needOn {p : Parser α} (hp : Spends paid p cost) (line : Nat) :
    Spends paid (Parser.needOn line p) cost :=
  ⟨fun hrun => hp.run (found_of_needOn hrun)⟩

theorem Spends.failHere {p : Parser α} (hp : Spends paid p cost) :
    Spends paid (Parser.failHere p) cost :=
  ⟨fun hrun => hp.run (found_of_failHere hrun)⟩

theorem Spends.optional {p : Parser α} (hp : Spends 0 p cost) :
    Spends 0 (LuaBundle.Lua.Parser.optional p) fun o => (o.toList.map cost).sum := by
  constructor
  intro ts o rest hrun
  rcases found_of_optional hrun with ⟨a, rfl, hfirst⟩ | ⟨rfl, _, rfl⟩
  · simpa using hp.run hfirst
  · simp

theorem spends_measured {p : Nat → Parser α} (hp : ∀ n, Spends paid (p n) cost) :
    Spends paid (fun ts => p ts.length ts) cost := by
  constructor
  intro ts a rest hrun
  exact (hp ts.length).run hrun

theorem spends_manyIn {p : Parser α} (hp : Spends 0 p cost) (fuel : Nat) :
    Spends 0 (manyIn p fuel) fun as => (as.map cost).sum := by
  induction fuel with
  | zero => exact spends_pure (Nat.le_refl _)
  | succ fuel ih =>
      constructor
      intro ts as rest hrun
      rcases found_of_manyIn hrun with ⟨a, more, mid, rfl, hfirst, hmore⟩ | ⟨rfl, _, rfl⟩
      · have hcost := hp.run hfirst
        have htotal := ih.run hmore
        rw [List.map_cons, List.sum_cons]
        omega
      · exact Nat.le_refl _

theorem Spends.many {p : Parser α} (hp : Spends 0 p cost) :
    Spends 0 (many p) fun as => (as.map cost).sum :=
  spends_measured (spends_manyIn hp)

theorem spends_growIn {step : α → Parser α} (hstep : ∀ a, Spends (cost a) (step a) cost)
    (fuel : Nat) (a : α) : Spends (cost a) (growIn step fuel a) cost := by
  induction fuel generalizing a with
  | zero => exact spends_pure (Nat.le_refl _)
  | succ fuel ih =>
      constructor
      intro ts b rest hrun
      rcases found_of_growIn hrun with ⟨c, mid, hfirst, hmore⟩ | ⟨rfl, _, rfl⟩
      · have hc := (hstep a).run hfirst
        have hb := (ih c).run hmore
        omega
      · exact Nat.le_refl _

theorem spends_grow {step : α → Parser α} (hstep : ∀ a, Spends (cost a) (step a) cost) (a : α) :
    Spends (cost a) (grow step a) cost :=
  spends_measured fun fuel => spends_growIn hstep fuel a

theorem spends_tokenIf (condition : Token → Bool) :
    Spends 0 (tokenIf condition) fun t => (t.text == "(").toNat := by
  constructor
  intro ts t rest hrun
  rcases found_of_tokenIf hrun with ⟨_, rfl⟩
  rw [openingTokens_cons, Nat.add_comm]
  exact Nat.le_refl _

theorem spends_sign (text : String) :
    Spends 0 (sign text) fun _ => (text == "(").toNat := by
  constructor
  intro ts t rest hrun
  rcases found_of_tokenIf hrun with ⟨ht, _⟩
  rw [← (is_iff.mp ht).2]
  exact (spends_tokenIf (·.is text)).run hrun

theorem spends_mark (text : String) : Spends 0 (sign text) fun _ => 0 :=
  (spends_sign text).mono fun _ => Nat.zero_le _

theorem spends_kind (k : Lexeme.Kind) : Spends 0 (kind k) fun t => (t.text == "(").toNat :=
  spends_tokenIf _

theorem Spends.separated {p : Parser α} (hp : Spends 0 p cost) :
    Spends 0 (separated p) fun as => (as.map cost).sum := by
  refine hp.bind fun first => ?_
  have hmore : Spends 0 (do let _ ← sign ","; p) cost :=
    (spends_sign ",").bind fun _ => by simpa using hp
  exact hmore.many.bind fun more => spends_pure (by simp)

end Combinators

end Lua
end LuaBundle
