import LuaBundle.Proofs.Grammar.FaultOrder
import LuaBundle.Proofs.Grammar.Spends

/-!
# What trees cost

Every rule of the grammar spends the opening parentheses that its tree is written with.  An
operation may have been read without parentheses only where the operators around it leave it
alone: to its right none follows that it would have taken, and to its left stands none that
binds as tightly.  There its layout writes no parentheses either.
-/

namespace LuaBundle
namespace Lua

open LuaBundle.Lua.Parser

/-!
## Operations without parentheses
-/

/-- No operator of a precedence or of a higher one follows. -/
def Halts (precedence : Nat) (rest : List Token) : Prop :=
  ∀ op more, binaryOp rest = .found op more → op.precedence < precedence

/-- An operation that was read without parentheses at a precedence, in front of the tokens
that ended it. -/
def Expr.Bare (precedence : Nat) (rest : List Token) : Expr → Prop
  | .unary _ _ => Halts UnaryOp.precedence rest
  | .binary op _ _ => precedence ≤ op.precedence ∧ Halts op.rightPrecedence rest
  | _ => False

def Expr.isOperation : Expr → Bool
  | .binary .. | .unary .. => true
  | _ => false

theorem needsParens_of_not {x : Expr} (h : x.isOperation = false) (position : Position) :
    x.needsParens position = false := by
  cases x <;> first | rfl | cases h

theorem needsParens_free (x : Expr) : x.needsParens .free = false := by
  cases x <;> rfl

section Bare

variable {x : Expr} {precedence : Nat} {rest more : List Token} {op : BinaryOp}

theorem Expr.Bare.inParens (h : x.Bare precedence rest) : x.inParens = false := by
  cases x <;> first | rfl | cases h

theorem Expr.Bare.operand (h : x.Bare UnaryOp.precedence rest) :
    x.needsParens .operand = false := by
  cases x with
  | unary => rfl
  | binary op left right =>
      have hle := h.1
      simp only [Expr.needsParens, BinaryOp.needsParens, decide_eq_false_iff_not]
      omega
  | _ => cases h

theorem Expr.Bare.right (h : x.Bare op.rightPrecedence rest) :
    x.needsParens (.right op) = false := by
  cases x with
  | unary => cases op <;> rfl
  | binary inner left right =>
      have hle := h.1
      have hop := precedence_le_right op
      simp only [Expr.needsParens, BinaryOp.needsParens]
      split
      -- Of the same precedence only an operator that associates to the right is read here.
      · rename_i heq
        have hassociative : inner.isRightAssociative = true := by
          rw [isRightAssociative_of_precedence heq]
          unfold BinaryOp.rightPrecedence at hle
          split at hle
          · assumption
          · omega
        rw [hassociative]
        rfl
      · rw [decide_eq_false_iff_not]
        omega
  | _ => cases h

theorem Expr.Bare.left (h : x.Bare precedence rest) (hop : binaryOp rest = .found op more) :
    x.needsParens (.left op) = false := by
  cases x with
  | unary inner operand =>
      have hlt := h op more hop
      simp only [Expr.needsParens, unaryNeedsParens, decide_eq_false_iff_not]
      omega
  | binary inner left right =>
      have hlt := h.2 op more hop
      unfold BinaryOp.rightPrecedence at hlt
      simp only [Expr.needsParens, BinaryOp.needsParens]
      split
      · rename_i heq
        have hassociative : inner.isRightAssociative = false := by
          cases hinner : inner.isRightAssociative with
          | false => rfl
          | true =>
              rw [hinner, if_pos rfl] at hlt
              omega
        rw [hassociative]
        rfl
      · rw [decide_eq_false_iff_not]
        split at hlt <;> omega
  | _ => cases h

end Bare

/-!
## Costs of expressions
-/

section Costs

variable (style : Style) (depth : Nat)

def baseOpenings (x : Expr) : Nat :=
  (x.inParens || !x.isPrefixed).toNat + openings (x.pieces style depth)

/-- The opening parentheses of an expression that has parentheses if it is an operation. -/
def closedOpenings (x : Expr) : Nat :=
  (x.inParens || x.isOperation).toNat + openings (x.pieces style depth)

def placedOpenings (position : Position) (x : Expr) : Nat :=
  (x.inParens || x.needsParens position).toNat + openings (x.pieces style depth)

/-- An expression that was read from tokens: with parentheses if it is an operation, or
without where it needs none. -/
def ReadFrom (ts : List Token) (precedence : Nat) (x : Expr) (rest : List Token) : Prop :=
  openingTokens rest + closedOpenings style depth x ≤ openingTokens ts ∨
    x.Bare precedence rest ∧
      openingTokens rest + openings (x.pieces style depth) ≤ openingTokens ts

/-- An entry whose expressions and blocks spend what they cost. -/
structure Entry.Spends (e : Entry) : Prop where
  shorter : ∀ {precedence ts x rest}, e.expr precedence ts = .found x rest →
    rest.length ≤ ts.length
  halts : ∀ {precedence ts x rest}, e.expr precedence ts = .found x rest → Halts precedence rest
  expr : ∀ depth {precedence ts x rest}, e.expr precedence ts = .found x rest →
    ReadFrom style depth ts precedence x rest
  block : ∀ depth, Lua.Spends 0 e.block fun body =>
    (body.map fun s => openings (s.pieces style depth)).sum

variable {style depth}

theorem closed_le_base (x : Expr) :
    closedOpenings style depth x ≤ baseOpenings style depth x := by
  refine Nat.add_le_add_right ?_ _
  cases hoperation : x.isOperation with
  | false => cases x.inParens <;> cases x.isPrefixed <;> decide
  | true =>
      have hprefixed : x.isPrefixed = false := by
        cases x <;> first | rfl | cases hoperation
      rw [hprefixed]
      exact Nat.le_refl _

theorem placed_le_closed (position : Position) (x : Expr) :
    placedOpenings style depth position x ≤ closedOpenings style depth x := by
  refine Nat.add_le_add_right ?_ _
  cases hoperation : x.isOperation with
  | false => rw [needsParens_of_not hoperation]
  | true => cases x.inParens <;> cases x.needsParens position <;> decide

theorem placed_free (x : Expr) :
    placedOpenings style depth .free x = rowOpenings style depth x := by
  unfold placedOpenings rowOpenings
  rw [needsParens_free, Bool.or_false]

theorem row_le_base (x : Expr) :
    rowOpenings style depth x ≤ baseOpenings style depth x := by
  rw [← placed_free]
  exact (placed_le_closed _ _).trans (closed_le_base _)

/-- An expression at a position where what was read without parentheses needs none. -/
theorem ReadFrom.placed {ts rest : List Token} {precedence : Nat} {x : Expr}
    (h : ReadFrom style depth ts precedence x rest) {position : Position}
    (hbare : x.Bare precedence rest → x.needsParens position = false) :
    openingTokens rest + placedOpenings style depth position x ≤ openingTokens ts := by
  rcases h with hclosed | ⟨hx, hopen⟩
  · have hle : placedOpenings style depth position x ≤ closedOpenings style depth x :=
      placed_le_closed position x
    omega
  · unfold placedOpenings
    rw [hbare hx, hx.inParens]
    simpa using hopen

end Costs

/-!
## Rules of expressions
-/

section Rules

variable {style : Style} {e : Entry}

theorem spends_name : Spends 0 name fun n => (n.text == "(").toNat :=
  (spends_kind .name).bind fun t => spends_pure (by simp)

theorem spends_stringLit : Spends 0 stringLit fun literal => (literal.raw == "(").toNat :=
  (spends_kind .string).bind fun t => spends_pure (by simp)

theorem spends_rest (style : Style) (depth : Nat) : Spends 0 rest (rowOpenings style depth) :=
  (spends_sign "...").bind fun t => spends_pure (by simp [rowOpenings, Expr.inParens, Expr.pieces])

theorem sum_names (style : Style) (depth : Nat) (names : List Name) :
    ((names.map Expr.name).map (rowOpenings style depth)).sum =
      (names.map fun n => (n.text == "(").toNat).sum := by
  rw [List.map_map]
  refine congrArg List.sum (List.map_congr_left fun n _ => ?_)
  simp [rowOpenings, Expr.inParens, Expr.pieces]

theorem spends_parameters (style : Style) (depth : Nat) :
    Spends 0 parameters fun ps => (ps.map (rowOpenings style depth)).sum := by
  apply Spends.orElse
  · refine spends_name.separated.bind fun names => ?_
    have hlast : Spends 0 (do let _ ← sign ","; rest) (rowOpenings style depth) :=
      (spends_sign ",").bind fun _ => spends_rest style depth
    refine hlast.optional.bind fun last => spends_pure ?_
    rw [List.map_append, List.sum_append, sum_names]
    omega
  · exact (spends_rest style depth).optional.bind fun last => spends_pure (by simp)

variable (he : e.Spends style) (depth : Nat)
include he

theorem Entry.Spends.row (precedence : Nat) :
    Lua.Spends 0 (e.expr precedence) (rowOpenings style depth) := by
  constructor
  intro ts x rest hrun
  have hfree : x.Bare precedence rest → x.needsParens .free = false := fun _ => needsParens_free x
  have hread := (he.expr depth hrun).placed hfree
  rw [placed_free] at hread
  exact hread

theorem Entry.Spends.body :
    Lua.Spends 0 e.block fun body =>
      openings (closedBody depth "end" body (blockPieces style (depth + 1) false body)) := by
  refine (he.block (depth + 1)).mono fun body => ?_
  rw [openings_closedBody]
  exact Nat.le_refl _

theorem spends_expressions :
    Spends 0 (expressions e) fun es => (es.map (rowOpenings style depth)).sum := by
  refine (he.row depth 1).optional.bind fun o => ?_
  cases o with
  | none => exact spends_pure (Nat.zero_le _)
  | some first =>
      have hmore : Spends 0 (do let _ ← sign ","; need (e.expr 1)) (rowOpenings style depth) :=
        (spends_sign ",").bind fun _ => (he.row depth 1).need
      exact hmore.many.bind fun more => spends_pure (by simp)

theorem spends_field : Spends 0 (field e) fun f => openings (f.pieces style depth) := by
  have hrow := he.row depth 1
  refine Spends.orElse ?keyed (Spends.orElse ?named ?positional)
  case keyed =>
    refine (spends_sign "[").bind fun _ => ?_
    refine hrow.need.bind fun key => ?_
    refine (spends_sign "]").need.bind fun _ => ?_
    refine (spends_sign "=").need.bind fun _ => ?_
    refine hrow.need.bind fun value => spends_pure ?_
    simp [Field.pieces, spacedSign, rowOpenings]
  case named =>
    refine spends_name.bind fun key => ?_
    refine (spends_sign "=").bind fun _ => ?_
    refine hrow.need.bind fun value => spends_pure ?_
    simp [Field.pieces, spacedSign, rowOpenings]
  case positional =>
    refine hrow.bind fun value => spends_pure ?_
    simp [Field.pieces, rowOpenings]

theorem spends_fieldsIn (fuel : Nat) :
    Spends 0 (fieldsIn e fuel) fun fs => (fs.map fun f => openings (f.pieces style depth)).sum := by
  induction fuel with
  | zero => exact spends_pure (Nat.zero_le _)
  | succ fuel ih =>
      refine (spends_field he depth).optional.bind fun o => ?_
      cases o with
      | none => exact spends_pure (Nat.zero_le _)
      | some first =>
          have hmark := (spends_mark ",").orElse (spends_mark ";")
          refine hmark.optional.bind fun separator => ?_
          cases separator with
          | none => exact spends_pure (by simp)
          | some _ => exact ih.bind fun more => spends_pure (by simp)

theorem spends_tableFields :
    Spends 0 (tableFields e) fun found =>
      openings (tablePieces style depth (fieldRows style (depth + 1) found.1)) := by
  refine (spends_sign _).bind fun opening => ?_
  refine (spends_measured (spends_fieldsIn he (depth + 1))).bind fun fields => ?_
  refine (spends_sign _).need.bind fun _ => spends_pure ?_
  simp [openings_fields]

theorem spends_functionBody :
    Spends 0 (functionBody e) fun found =>
      1 + (found.1.map (rowOpenings style depth)).sum +
        openings (closedBody depth "end" found.2
          (blockPieces style (depth + 1) false found.2)) := by
  refine (spends_sign "(").need.bind fun _ => ?_
  refine (spends_parameters style depth).bind fun ps => ?_
  refine (spends_sign ")").need.bind fun _ => ?_
  refine (he.body depth).bind fun body => ?_
  refine (spends_sign "end").need.bind fun _ => spends_pure ?_
  simp

theorem spends_arguments :
    Spends 0 (arguments e) fun found => openings (found.1.pieces style depth) := by
  refine Spends.orElse ?list (Spends.orElse ?table ?string)
  case list =>
    refine (spends_sign "(").bind fun opening => ?_
    refine (spends_expressions he depth).bind fun list => ?_
    refine (spends_sign ")").need.bind fun _ => spends_pure ?_
    simp [Args.pieces, openings_exprs]
  case table =>
    refine (spends_tableFields he depth).bind fun found => spends_pure ?_
    simp [Args.pieces]
  case string =>
    refine spends_stringLit.bind fun literal => spends_pure ?_
    simp [Args.pieces]

theorem spends_suffix (base : Suffixed) :
    Spends (baseOpenings style depth base.expr) (suffix e base)
      fun s => baseOpenings style depth s.expr := by
  refine Spends.orElse ?call (Spends.orElse ?method (Spends.orElse ?index ?member))
  case call =>
    refine (spends_arguments he depth).bind fun found => spends_pure ?_
    simp [baseOpenings, Expr.pieces, Expr.inParens, Expr.isPrefixed]
  case method =>
    refine (spends_sign ":").bind fun _ => ?_
    refine spends_name.need.bind fun method => ?_
    refine (spends_arguments he depth).need.bind fun found => spends_pure ?_
    simp [baseOpenings, Expr.pieces, Expr.inParens, Expr.isPrefixed, Indexer.sign]
  case index =>
    refine (spends_sign "[").bind fun _ => ?_
    refine (he.row depth 1).need.bind fun key => ?_
    refine (spends_sign "]").need.bind fun _ => spends_pure ?_
    simp [baseOpenings, rowOpenings, Expr.pieces, Expr.inParens, Expr.isPrefixed]
  case member =>
    refine (spends_sign ".").bind fun _ => ?_
    refine spends_name.need.bind fun member => spends_pure ?_
    simp [baseOpenings, Expr.pieces, Expr.inParens, Expr.isPrefixed, Indexer.sign]

theorem spends_paren :
    Spends 0 (paren e) fun x => 1 + openings (x.pieces style depth) := by
  refine (spends_sign "(").bind fun _ => ?_
  refine (he.row depth 1).need.bind fun inner => ?_
  refine (spends_sign ")").need.bind fun _ => spends_pure ?_
  have hpieces : inner.parenthesized.pieces style depth = inner.pieces style depth := by
    cases inner <;> rfl
  simp only [hpieces, rowOpenings]
  simp

theorem spends_suffixed :
    Spends 0 (suffixed e) fun s => baseOpenings style depth s.expr := by
  have hstart : Spends 0
      ((do let inner ← paren e; return (⟨inner, .paren⟩ : Suffixed))
        <|> (do let name ← name; return ⟨.name name, .name⟩))
      fun s => baseOpenings style depth s.expr := by
    apply Spends.orElse
    · refine (spends_paren he depth).bind fun inner => spends_pure ?_
      have hle := (inner.inParens || !inner.isPrefixed).toNat_le
      simp only [baseOpenings]
      omega
    · refine spends_name.bind fun n => spends_pure ?_
      simp [baseOpenings, Expr.pieces, Expr.inParens, Expr.isPrefixed]
  refine hstart.bind fun start => ?_
  rw [Nat.zero_add]
  exact spends_grow (spends_suffix he depth) start

theorem spends_value : Spends 0 (value e) (closedOpenings style depth) := by
  refine Spends.orElse ?nil (Spends.orElse ?no (Spends.orElse ?yes (Spends.orElse ?number
    (Spends.orElse ?string (Spends.orElse ?rest (Spends.orElse ?function (Spends.orElse ?table
      ?suffixed)))))))
  case nil => exact (spends_sign "nil").bind fun _ => spends_pure (Nat.zero_le _)
  case no => exact (spends_sign "false").bind fun _ => spends_pure (Nat.zero_le _)
  case yes => exact (spends_sign "true").bind fun _ => spends_pure (Nat.zero_le _)
  case number =>
    refine (spends_kind .number).bind fun t => spends_pure ?_
    simp [closedOpenings, Expr.inParens, Expr.isOperation, Expr.pieces, Numeral.text]
  case string =>
    refine spends_stringLit.bind fun literal => spends_pure ?_
    simp [closedOpenings, Expr.inParens, Expr.isOperation, Expr.pieces]
  case rest =>
    refine (spends_sign "...").bind fun t => spends_pure ?_
    simp [closedOpenings, Expr.inParens, Expr.isOperation, Expr.pieces]
  case function =>
    refine (spends_sign "function").bind fun _ => ?_
    refine (spends_functionBody he depth).bind fun found => spends_pure ?_
    simp [closedOpenings, Expr.inParens, Expr.isOperation, Expr.pieces, openings_exprs,
      Nat.add_assoc]
  case table =>
    refine (spends_tableFields he depth).bind fun found => spends_pure ?_
    simp [closedOpenings, Expr.inParens, Expr.isOperation, Expr.pieces]
  case suffixed =>
    refine (spends_suffixed he depth).bind fun s => spends_pure ?_
    rw [Nat.zero_add]
    exact closed_le_base s.expr

omit he in
theorem unaryOp_openings {ts more : List Token} {op : UnaryOp} (h : unaryOp ts = .found op more) :
    openingTokens more ≤ openingTokens ts := by
  cases ts with
  | nil => cases h
  | cons t others =>
      simp only [unaryOp] at h
      split at h
      · cases h
        rw [openingTokens_cons]
        omega
      · cases h

omit he in
theorem binaryOp_takes {ts more : List Token} {op : BinaryOp} (h : binaryOp ts = .found op more) :
    openingTokens more ≤ openingTokens ts ∧ more.length < ts.length := by
  cases ts with
  | nil => cases h
  | cons t others =>
      have hothers : openingTokens more ≤ openingTokens others ∧ more.length ≤ others.length := by
        cases others with
        | nil =>
            simp only [binaryOp] at h
            split at h <;> cases h
            exact ⟨Nat.le_refl _, Nat.le_refl _⟩
        | cons u others =>
            simp only [binaryOp] at h
            split at h
            · cases h
              rw [openingTokens_cons, List.length_cons]
              omega
            · split at h <;> cases h
              exact ⟨Nat.le_refl _, Nat.le_refl _⟩
      rw [openingTokens_cons, List.length_cons]
      omega

theorem operand_read {ts rest : List Token} {x : Expr} (h : operand e ts = .found x rest)
    (precedence : Nat) : ReadFrom style depth ts precedence x rest := by
  rcases found_of_orElse h with hunary | ⟨_, hvalue⟩
  · rcases found_of_bind hunary with ⟨op, mid, hop, hmore⟩
    rcases found_of_bind hmore with ⟨inner, last, hneed, hpure⟩
    cases hpure
    have hinner := found_of_need hneed
    have hcost := (he.expr depth hinner).placed fun hbare => hbare.operand
    have hsign := unaryOp_openings hop
    refine Or.inr ⟨he.halts hinner, ?_⟩
    have hopening : (op.sign == "(").toNat = 0 := by cases op <;> rfl
    have hpieces : openings ((Expr.unary op inner).pieces style depth) =
        placedOpenings style depth .operand inner := by
      rw [Expr.pieces, List.cons_append, openings_token, openings_append, openings_enclosed,
        hopening]
      cases op <;> simp [placedOpenings]
    omega
  · exact Or.inl ((spends_value he depth).run hvalue)

theorem joined_read {ts mid rest : List Token} {left x : Expr} {precedence : Nat}
    (hleft : ReadFrom style depth ts precedence left mid)
    (h : joined e precedence left mid = .found x rest) :
    ReadFrom style depth ts precedence x rest ∧ rest.length < mid.length := by
  rcases found_of_bind h with ⟨op, more, hop, hmore⟩
  split at hmore
  case isFalse => cases hmore
  case isTrue hle =>
    rcases found_of_bind hmore with ⟨right, last, hneed, hpure⟩
    cases hpure
    have hright := found_of_need hneed
    -- The left operand was ended by the operator that joins it here.
    have hleftCost := hleft.placed fun hbare => hbare.left hop
    have hrightCost := (he.expr depth hright).placed fun hbare => hbare.right
    have htakes := binaryOp_takes hop
    have hshorter := he.shorter hright
    have hpieces : openings ((Expr.binary op left right).pieces style depth) =
        placedOpenings style depth (.left op) left +
          placedOpenings style depth (.right op) right := by
      rw [Expr.pieces, openings_append, openings_append, openings_enclosed, openings_enclosed,
        openings_operator]
      simp [placedOpenings]
    refine ⟨Or.inr ⟨⟨hle, he.halts hright⟩, ?_⟩, ?_⟩ <;> omega

omit he in
theorem halts_of_joined {precedence : Nat} {left : Expr} {rest : List Token}
    (h : joined e precedence left rest = .absent) : Halts precedence rest := by
  intro op more hop
  refine Nat.lt_of_not_le fun hle => ?_
  have hjoined := (bind_found hop).symm.trans h
  rw [if_pos hle, run_bind] at hjoined
  cases hneed : need (e.expr op.rightPrecedence) more with
  | absent =>
      unfold need at hneed
      split at hneed
      · cases hneed
      · rename_i hne
        exact hne hneed
  | _ => rw [hneed] at hjoined; cases hjoined

theorem growIn_read {ts : List Token} {precedence : Nat} (fuel : Nat) {left x : Expr}
    {mid rest : List Token} (hfuel : mid.length ≤ fuel)
    (hleft : ReadFrom style depth ts precedence left mid)
    (h : growIn (joined e precedence) fuel left mid = .found x rest) :
    ReadFrom style depth ts precedence x rest ∧ Halts precedence rest := by
  -- The operand stays one that was read from the first tokens while it grows.
  induction fuel generalizing left mid with
  | zero =>
      have hnil : mid = [] := List.length_eq_zero_iff.mp (Nat.le_zero.mp hfuel)
      subst hnil
      cases h
      exact ⟨hleft, fun op more hop => by cases hop⟩
  | succ fuel ih =>
      rcases found_of_growIn h with ⟨next, others, hjoined, hmore⟩ | ⟨rfl, hjoined, rfl⟩
      · rcases joined_read he depth hleft hjoined with ⟨hnext, hlength⟩
        exact ih (by omega) hnext hmore
      · exact ⟨hleft, halts_of_joined hjoined⟩

theorem expression_read {ts rest : List Token} {x : Expr} {precedence : Nat}
    (h : expression e precedence ts = .found x rest) :
    ReadFrom style depth ts precedence x rest ∧ Halts precedence rest := by
  rcases found_of_bind h with ⟨first, mid, hfirst, hgrow⟩
  exact growIn_read he depth mid.length (Nat.le_refl _) (operand_read he depth hfirst precedence)
    hgrow

end Rules

/-!
## Rules of statements
-/

section Statements

variable {style : Style} {e : Entry} (depth : Nat)

theorem openings_member {base : Expr} (hparens : base.inParens = false)
    (hprefixed : base.isPrefixed = true) (indexer : Indexer) (n : Name) :
    rowOpenings style depth (.member base indexer n) =
      rowOpenings style depth base + (n.text == "(").toNat := by
  unfold rowOpenings
  rw [Expr.pieces, hparens, hprefixed]
  cases indexer <;> simp [Expr.inParens, Indexer.sign]

theorem openings_members (members : List Name) {base : Expr} (hparens : base.inParens = false)
    (hprefixed : base.isPrefixed = true) :
    let whole := members.foldl (fun base member => Expr.member base .dot member) base
    whole.inParens = false ∧ whole.isPrefixed = true ∧
      rowOpenings style depth whole =
        rowOpenings style depth base + (members.map fun n => (n.text == "(").toNat).sum := by
  induction members generalizing base with
  | nil => exact ⟨hparens, hprefixed, rfl⟩
  | cons n rest ih =>
      have hnext := @ih (.member base .dot n) rfl rfl
      rw [openings_member depth hparens hprefixed] at hnext
      refine ⟨hnext.1, hnext.2.1, hnext.2.2.trans ?_⟩
      rw [List.map_cons, List.sum_cons, Nat.add_assoc]

theorem spends_functionName (style : Style) : Spends 0 functionName (rowOpenings style depth) := by
  refine spends_name.need.bind fun first => ?_
  have hmember : Spends 0 (do let _ ← sign "."; name) fun n => (n.text == "(").toNat :=
    (spends_sign ".").bind fun _ => by simpa using spends_name
  refine hmember.many.bind fun members => ?_
  have hbase := @openings_members style depth members (.name first) rfl rfl
  have hmethod : Spends 0 (do let _ ← sign ":"; need name) fun n => (n.text == "(").toNat :=
    (spends_sign ":").bind fun _ => by simpa using spends_name.need
  refine hmethod.optional.bind fun method => ?_
  cases method with
  | none =>
      refine spends_pure (hbase.2.2.trans_le ?_)
      simp [rowOpenings, Expr.inParens, Expr.pieces]
  | some n =>
      refine spends_pure ((openings_member depth hbase.1 hbase.2.1 .colon n).trans_le ?_)
      rw [hbase.2.2]
      simp [rowOpenings, Expr.inParens, Expr.pieces]

theorem spends_localVar : Spends 0 localVar fun v => openings v.pieces := by
  refine spends_name.need.bind fun n => ?_
  have hattrib : Spends 0
      (do
        let _ ← sign "<"
        let t ← Parser.need (kind .name)
        let _ ← Parser.need (sign ">")
        return ({ name := t.text, line := t.line } : Attribute))
      fun a => (a.name == "(").toNat := by
    refine (spends_sign "<").bind fun _ => ?_
    refine (spends_kind .name).need.bind fun t => ?_
    exact (spends_sign ">").need.bind fun _ => spends_pure (by simp)
  refine hattrib.optional.bind fun attrib => spends_pure ?_
  cases attrib <;> simp [LocalVar.pieces]

variable (he : e.Spends style)
include he

theorem spends_target : Spends 0 (target e) (rowOpenings style depth) := by
  refine (spends_suffixed he depth).bind fun s => ?_
  rw [Nat.zero_add]
  have hrow : rowOpenings style depth s.expr ≤ baseOpenings style depth s.expr :=
    row_le_base s.expr
  cases s.ending with
  | name => exact spends_pure hrow
  | index => exact spends_pure hrow
  | paren => exact spends_nothing
  | call => exact spends_nothing

theorem spends_values : Spends 0 (separated (e.expr 1)) fun es =>
    openings (commaSeparated (exprRows style depth es)) :=
  (he.row depth 1).separated.mono fun es => (openings_exprs es).le

theorem spends_callOrAssign :
    Spends 0 (callOrAssign e) fun s => openings (s.pieces style depth) := by
  refine (spends_suffixed he depth).bind fun s => ?_
  rw [Nat.zero_add]
  have hrow : rowOpenings style depth s.expr ≤ baseOpenings style depth s.expr :=
    row_le_base s.expr
  have hassign : Spends (baseOpenings style depth s.expr)
      (do
        let more ← many (do let _ ← sign ","; target e)
        let _ ← sign "="
        let values ← Parser.need (separated (e.expr 1))
        return Stat.assign (s.expr :: more) values)
      fun s => openings (s.pieces style depth) := by
    have htarget : Spends 0 (do let _ ← sign ","; target e) (rowOpenings style depth) :=
      (spends_sign ",").bind fun _ => spends_target depth he
    refine htarget.many.bind fun more => ?_
    refine (spends_sign "=").bind fun _ => ?_
    refine (spends_values depth he).need.bind fun values => spends_pure ?_
    simp [Stat.pieces, spacedSign, openings_exprs]
    omega
  cases s.ending with
  | name => exact hassign
  | index => exact hassign
  | paren => exact spends_nothing
  | call =>
      refine spends_pure ?_
      rw [Stat.pieces, openings_row]
      exact hrow

theorem spends_doBlock : Spends 0 (doBlock e) fun s => openings (s.pieces style depth) := by
  refine (spends_sign "do").bind fun _ => ?_
  refine (he.body depth).bind fun body => ?_
  refine (spends_sign "end").need.bind fun _ => spends_pure ?_
  simp [Stat.pieces]

theorem spends_whileLoop : Spends 0 (whileLoop e) fun s => openings (s.pieces style depth) := by
  refine (spends_sign "while").bind fun _ => ?_
  refine (he.row depth 1).need.bind fun condition => ?_
  refine (spends_sign "do").need.bind fun _ => ?_
  refine (he.body depth).bind fun body => ?_
  refine (spends_sign "end").need.bind fun _ => spends_pure ?_
  simp [Stat.pieces, rowOpenings]

theorem spends_repeatLoop : Spends 0 (repeatLoop e) fun s => openings (s.pieces style depth) := by
  refine (spends_sign "repeat").bind fun _ => ?_
  refine (he.block (depth + 1)).bind fun body => ?_
  refine (spends_sign "until").need.bind fun _ => ?_
  refine (he.row depth 1).need.bind fun condition => spends_pure ?_
  simp [Stat.pieces, rowOpenings, openings_closedBody]

theorem spends_nextClause : Spends 0 (nextClause e) fun c => openings (c.pieces style depth) := by
  refine (spends_sign "elseif").bind fun t => ?_
  refine ((he.row depth 1).needOn t.line).bind fun condition => ?_
  refine ((spends_sign "then").needOn t.line).bind fun _ => ?_
  refine (he.block (depth + 1)).bind fun body => spends_pure ?_
  simp [Clause.pieces, rowOpenings, openings_block]

theorem spends_choice : Spends 0 (choice e) fun s => openings (s.pieces style depth) := by
  refine (spends_sign "if").bind fun _ => ?_
  refine (he.row depth 1).need.bind fun condition => ?_
  refine (spends_sign "then").need.bind fun _ => ?_
  refine (he.block (depth + 1)).bind fun body => ?_
  refine (spends_nextClause depth he).many.bind fun more => ?_
  have helse : Spends 0 (do let _ ← sign "else"; e.block) fun body =>
      openings ((Clause.otherwise body).pieces style depth) := by
    refine (spends_sign "else").bind fun _ => ?_
    refine (he.block (depth + 1)).mono fun body => ?_
    simp [Clause.pieces, openings_block]
  refine helse.optional.bind fun last => ?_
  refine (spends_sign "end").need.bind fun _ => spends_pure ?_
  cases last <;>
    simp [Stat.pieces, openings_clauses, Clause.pieces, rowOpenings, openings_block, Nat.add_assoc]

theorem spends_forRange : Spends 0 (forRange e) fun s => openings (s.pieces style depth) := by
  refine (spends_sign "for").bind fun _ => ?_
  refine spends_name.need.bind fun counter => ?_
  refine (spends_sign "=").bind fun _ => ?_
  refine (he.row depth 1).need.bind fun first => ?_
  refine (spends_sign ",").need.bind fun _ => ?_
  refine (he.row depth 1).need.bind fun last => ?_
  have hstep : Spends 0 (do let _ ← sign ","; need (e.expr 1)) (rowOpenings style depth) :=
    (spends_sign ",").bind fun _ => (he.row depth 1).need
  refine hstep.optional.bind fun step => ?_
  refine (spends_sign "do").need.bind fun _ => ?_
  refine (he.body depth).bind fun body => ?_
  refine (spends_sign "end").need.bind fun _ => spends_pure ?_
  have hcommas : openings (if step.isSome then commaPieces else []) = 0 := by
    cases step <;> rfl
  simp only [Stat.pieces, openings_append, hcommas]
  simp [spacedSign, commaPieces, rowOpenings, openings_option, Nat.add_assoc]

theorem spends_forEach : Spends 0 (forEach e) fun s => openings (s.pieces style depth) := by
  refine (spends_sign "for").bind fun _ => ?_
  refine spends_name.separated.need.bind fun vars => ?_
  refine (spends_sign "in").need.bind fun _ => ?_
  refine (spends_values depth he).need.bind fun iterators => ?_
  refine (spends_sign "do").need.bind fun _ => ?_
  refine (he.body depth).bind fun body => ?_
  refine (spends_sign "end").need.bind fun _ => spends_pure ?_
  simp [Stat.pieces, openings_names, Nat.add_assoc]

theorem spends_functionDeclaration :
    Spends 0 (functionDeclaration e) fun s => openings (s.pieces style depth) := by
  refine (spends_sign "function").bind fun _ => ?_
  refine (spends_functionName depth style).bind fun name => ?_
  refine (spends_functionBody he depth).bind fun found => spends_pure ?_
  simp [Stat.pieces, openings_option, openings_exprs, Nat.add_assoc]

theorem spends_localFunction :
    Spends 0 (localFunction e) fun s => openings (s.pieces style depth) := by
  refine (spends_sign "local").bind fun _ => ?_
  refine (spends_sign "function").bind fun _ => ?_
  refine spends_name.need.bind fun n => ?_
  refine (spends_functionBody he depth).bind fun found => spends_pure ?_
  simp [Stat.pieces, openings_option, openings_exprs, rowOpenings, Expr.inParens, Expr.pieces,
    Nat.add_assoc]

theorem spends_locals : Spends 0 (locals e) fun s => openings (s.pieces style depth) := by
  refine (spends_sign "local").bind fun _ => ?_
  refine spends_localVar.bind fun first => ?_
  have hmore : Spends 0 (do let _ ← sign ","; localVar) fun v => openings v.pieces :=
    (spends_sign ",").bind fun _ => by simpa using spends_localVar
  refine hmore.many.bind fun more => ?_
  have hvalues : Spends 0 (do let _ ← sign "="; failHere (need (separated (e.expr 1))))
      fun es => openings (commaSeparated (exprRows style depth es)) :=
    (spends_sign "=").bind fun _ => by simpa using (spends_values depth he).need.failHere
  refine hvalues.optional.bind fun values => spends_pure ?_
  have hgiven : openings (if (values.getD []).isEmpty then []
      else spacedSign "=" ++ commaSeparated (exprRows style depth (values.getD []))) ≤
      (values.toList.map fun es => openings (commaSeparated (exprRows style depth es))).sum := by
    -- No values are written like no list of them.
    cases values with
    | none => exact Nat.le_refl _
    | some es => cases es <;> simp [spacedSign]
  have hvars : openings (commaSeparated ((first :: more).map LocalVar.pieces)) =
      openings first.pieces + (more.map fun v => openings v.pieces).sum := by
    rw [openings_commaSeparated, List.map_map, List.map_cons, List.sum_cons]
    rfl
  have hword : ("local" == "(").toNat = 0 := rfl
  simp only [Stat.pieces, openings_append, openings_token, openings_gap, hvars, hword]
  omega

omit he in
theorem spends_gotoLabel : Spends 0 gotoLabel fun s => openings (s.pieces style depth) := by
  refine (spends_sign "goto").bind fun _ => ?_
  refine spends_name.need.bind fun n => spends_pure ?_
  simp [Stat.pieces]

omit he in
theorem spends_label : Spends 0 label fun s => openings (s.pieces style depth) := by
  refine (spends_sign "::").bind fun _ => ?_
  refine spends_name.need.bind fun n => ?_
  refine (spends_sign "::").need.bind fun _ => spends_pure ?_
  simp [Stat.pieces]

theorem spends_statement : Spends 0 (statement e) fun s => openings (s.pieces style depth) :=
  (spends_callOrAssign depth he).orElse <| (spends_doBlock depth he).orElse <|
    (spends_whileLoop depth he).orElse <| (spends_repeatLoop depth he).orElse <|
    (spends_choice depth he).orElse <| (spends_forRange depth he).orElse <|
    (spends_forEach depth he).orElse <| (spends_functionDeclaration depth he).orElse <|
    (spends_localFunction depth he).orElse <| (spends_locals depth he).orElse <|
    (spends_gotoLabel depth).orElse (spends_label depth)

theorem spends_lastStatement :
    Spends 0 (lastStatement e) fun s => openings (s.pieces style depth) := by
  apply Spends.orElse
  · refine (spends_sign "return").bind fun _ => ?_
    refine (spends_expressions he depth).bind fun values => spends_pure ?_
    cases values with
    | nil => simp [Stat.pieces]
    | cons first more => simp [Stat.pieces, openings_exprs]
  · exact (spends_sign "break").bind fun _ => spends_pure (by simp [Stat.pieces])

omit he in
theorem Spends.terminated {p : Parser Stat} {cost : Stat → Nat} (hp : Spends 0 p cost) :
    Spends 0 (terminated p) cost := by
  refine hp.bind fun s => ?_
  exact (spends_sign ";").optional.bind fun _ => spends_pure (by omega)

theorem spends_block : Spends 0 (block e) fun body =>
    (body.map fun s => openings (s.pieces style depth)).sum := by
  refine (spends_statement depth he).terminated.many.bind fun body => ?_
  refine (spends_lastStatement depth he).terminated.optional.bind fun last => spends_pure ?_
  rw [List.map_append, List.sum_append]
  omega

end Statements

/-!
## Sources
-/

theorem spends_entry (style : Style) (depth : Nat) : (entry depth).Spends style := by
  induction depth with
  | zero =>
      constructor
      case block => exact fun _ => spends_fail
      all_goals
        intros
        contradiction
  | succ depth ih =>
      constructor
      case shorter =>
        intro precedence ts x rest h
        have hscan := ((scans_entry .utf8 (depth + 1)).expr precedence []).run h
        rcases hscan with ⟨_, _, _, hsuffix, _⟩
        exact hsuffix.length_le
      case halts =>
        intro precedence ts x rest h
        exact (expression_read ih 0 h).2
      case expr =>
        intro d precedence ts x rest h
        exact (expression_read ih d h).1
      case block => exact fun d => spends_block d ih

/-- The tree of a source costs no more than the tokens in front of its end. -/
theorem program_openings {style : Style} {source : List Char} {lexemes : List Lexeme}
    {body : List Stat} (hlex : lex source = .ok lexemes)
    (h : program (tokens lexemes) = .ok body) {front : List Token} {t : Token}
    (htokens : tokens lexemes = front ++ [t]) (depth : Nat) (follows : Bool) :
    openings (blockPieces style depth follows body) ≤ openingTokens front := by
  rcases found_of_program hlex h with ⟨front', t', htokens', _, hblock⟩
  have hspent := ((spends_entry style _).block depth).run hblock
  rcases List.append_inj' (htokens.symm.trans htokens') rfl with ⟨rfl, _⟩
  rw [htokens', openingTokens_append] at hspent
  rw [openings_block]
  omega

end Lua
end LuaBundle
