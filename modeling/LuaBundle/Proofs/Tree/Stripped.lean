import LuaBundle.Lua.Fault
import LuaBundle.Lua.Layout

/-!
# Stripped trees

What a layout shows of a tree leaves out the lines, the marks of local names, and which of
two equally tight operators came first where the layout puts no parentheses.  A tree is
stripped of lines and marks while its operations are put together anew, either as they were
or in the groups in which their layout is read again.  Neither changes what is printed.
-/

namespace LuaBundle
namespace Lua

open Text

/-!
## Leaves

A name loses its mark, and everything else its line.
-/

def Name.stripped (n : Name) : Name :=
  { n with isLocal := false }

def StringLit.stripped (literal : StringLit) : StringLit :=
  { literal with line := 0 }

def Attribute.stripped (a : Attribute) : Attribute :=
  { a with line := 0 }

def LocalVar.stripped (v : LocalVar) : LocalVar :=
  { name := v.name.stripped, attrib := v.attrib.map Attribute.stripped }

/-!
## Trees

Operations are put together by a function, and all other nodes stay as they are.
-/

mutual

/-- An expression without lines and marks, its operations put together by `join`. -/
def Expr.stripped (join : BinaryOp → Expr → Expr → Expr) : Expr → Expr
  | .name n => .name n.stripped
  | .string literal => .string literal.stripped
  | .number numeral _ => .number numeral 0
  | .boolean value => .boolean value
  | .nil => .nil
  | .vararg inParens _ => .vararg inParens 0
  | .function parameters body =>
      .function (strippedExprs join parameters) (strippedBlock join body)
  | .table fields => .table (strippedFields join fields)
  | .binary op left right => join op (left.stripped join) (right.stripped join)
  | .unary op operand => .unary op (operand.stripped join)
  | .member base indexer n => .member (base.stripped join) indexer n.stripped
  | .index base key => .index (base.stripped join) (key.stripped join)
  | .call base arguments inParens _ =>
      .call (base.stripped join) (arguments.stripped join) inParens 0

def Args.stripped (join : BinaryOp → Expr → Expr → Expr) : Args → Args
  | .list arguments => .list (strippedExprs join arguments)
  | .table fields => .table (strippedFields join fields)
  | .string literal => .string literal.stripped

def Field.stripped (join : BinaryOp → Expr → Expr → Expr) : Field → Field
  | .keyed key value => .keyed (key.stripped join) (value.stripped join)
  | .named n value => .named n.stripped (value.stripped join)
  | .positional value => .positional (value.stripped join)

def Stat.stripped (join : BinaryOp → Expr → Expr → Expr) : Stat → Stat
  | .label n => .label n.stripped
  | .goto n => .goto n.stripped
  | .leave => .leave
  | .ret values => .ret (strippedExprs join values)
  | .choice clauses => .choice (strippedClauses join clauses)
  | .whileLoop condition body =>
      .whileLoop (condition.stripped join) (strippedBlock join body)
  | .block body => .block (strippedBlock join body)
  | .repeatLoop body condition =>
      .repeatLoop (strippedBlock join body) (condition.stripped join)
  | .locals vars values => .locals (vars.map LocalVar.stripped) (strippedExprs join values)
  | .assign targets values =>
      .assign (strippedExprs join targets) (strippedExprs join values)
  | .call e => .call (e.stripped join)
  | .function isLocal name parameters body =>
      .function isLocal (strippedOption join name) (strippedExprs join parameters)
        (strippedBlock join body)
  | .forRange counter first last step body =>
      .forRange counter.stripped (first.stripped join) (last.stripped join)
        (strippedOption join step) (strippedBlock join body)
  | .forEach vars iterators body =>
      .forEach (vars.map Name.stripped) (strippedExprs join iterators)
        (strippedBlock join body)

def Clause.stripped (join : BinaryOp → Expr → Expr → Expr) : Clause → Clause
  | .first condition body => .first (condition.stripped join) (strippedBlock join body)
  | .next condition body => .next (condition.stripped join) (strippedBlock join body)
  | .otherwise body => .otherwise (strippedBlock join body)

def strippedOption (join : BinaryOp → Expr → Expr → Expr) : Option Expr → Option Expr
  | none => none
  | some e => some (e.stripped join)

def strippedExprs (join : BinaryOp → Expr → Expr → Expr) : List Expr → List Expr
  | [] => []
  | e :: rest => e.stripped join :: strippedExprs join rest

def strippedFields (join : BinaryOp → Expr → Expr → Expr) : List Field → List Field
  | [] => []
  | f :: rest => f.stripped join :: strippedFields join rest

def strippedBlock (join : BinaryOp → Expr → Expr → Expr) : List Stat → List Stat
  | [] => []
  | s :: rest => s.stripped join :: strippedBlock join rest

def strippedClauses (join : BinaryOp → Expr → Expr → Expr) : List Clause → List Clause
  | [] => []
  | c :: rest => c.stripped join :: strippedClauses join rest

end

/-!
## Ways to put operations together
-/

/-- An operand joined to the left of an operation: past all operands at its left edge that
are joined by operators of the same precedence. -/
def attach (op : BinaryOp) (left : Expr) : Expr → Expr
  | .binary inner first second =>
      if inner.precedence = op.precedence then .binary inner (attach op left first) second
      else .binary op left (.binary inner first second)
  | right => .binary op left right

/-- An operation in the groups in which its layout is read. -/
def regrouped (op : BinaryOp) (left right : Expr) : Expr :=
  match right with
  | .binary inner _ _ =>
      if inner.precedence = op.precedence ∧ regroups op inner = true then attach op left right
      else .binary op left right
  | _ => .binary op left right

/-- A way to put operations together that a layout does not show. -/
structure KeepsLayout (join : BinaryOp → Expr → Expr → Expr) : Prop where
  pieces : ∀ op left right style depth,
    (join op left right).pieces style depth = (Expr.binary op left right).pieces style depth
  needsParens : ∀ op left right position,
    (join op left right).needsParens position = op.needsParens position
  isBinary : ∀ op left right, ∃ inner first second,
    join op left right = .binary inner first second
  faults : ∀ op left right encoding rest, (join op left right).faults encoding rest = [] ↔
    left.faults encoding rest = [] ∧ right.faults encoding rest = []

theorem keepsLayout_binary : KeepsLayout .binary where
  pieces _ _ _ _ _ := rfl
  needsParens _ _ _ _ := rfl
  isBinary _ _ _ := ⟨_, _, _, rfl⟩
  faults _ _ _ _ _ := by
    rw [Expr.faults, List.append_eq_nil_iff]

/-!
## Operands of equally tight operators
-/

def Expr.hasPrecedence (precedence : Nat) : Expr → Bool
  | .binary op _ _ => op.precedence == precedence
  | _ => false

theorem attach_of_ne {op : BinaryOp} {left right : Expr}
    (h : right.hasPrecedence op.precedence = false) :
    attach op left right = .binary op left right := by
  cases right with
  | binary inner first second =>
      have hne : inner.precedence ≠ op.precedence := by simpa [Expr.hasPrecedence] using h
      rw [attach, if_neg hne]
  | _ => rfl

theorem isRightAssociative_of_precedence {op inner : BinaryOp}
    (h : inner.precedence = op.precedence) :
    inner.isRightAssociative = op.isRightAssociative := by
  revert h
  cases op <;> cases inner <;> simp [BinaryOp.precedence, BinaryOp.isRightAssociative]

theorem regroups_cases {op inner : BinaryOp} (h : regroups op inner = true) :
    op = .add ∨ op = .mul ∧ (inner = .mul ∨ inner = .div) := by
  unfold regroups at h
  split at h
  · exact Or.inl rfl
  · exact Or.inr ⟨rfl, Or.inl rfl⟩
  · exact Or.inr ⟨rfl, Or.inr rfl⟩
  · cases h

theorem leftAssociative_of_regroups {op inner : BinaryOp} (h : regroups op inner = true) :
    op.isRightAssociative = false := by
  rcases regroups_cases h with rfl | ⟨rfl, _⟩ <;> rfl

/-- An operand that is no operation of the same precedence needs parentheses on both sides
of such operators or on none. -/
theorem needsParens_side {op inner : BinaryOp} {e : Expr}
    (hprecedence : inner.precedence = op.precedence) (hleft : op.isRightAssociative = false)
    (h : e.hasPrecedence op.precedence = false) :
    e.needsParens (.left inner) = e.needsParens (.right op) := by
  cases e with
  | binary other first second =>
      have hne : other.precedence ≠ op.precedence := by simpa [Expr.hasPrecedence] using h
      simp [Expr.needsParens, BinaryOp.needsParens, hprecedence, hne]
  | unary other operand =>
      have hpow : op ≠ .pow := by
        rintro rfl
        simp [BinaryOp.isRightAssociative] at hleft
      cases op <;> simp_all [Expr.needsParens, unaryNeedsParens]
  | _ => rfl

theorem attach_isBinary (op : BinaryOp) (left right : Expr) :
    ∃ inner first second, attach op left right = .binary inner first second ∧
      inner.precedence = op.precedence := by
  cases right with
  | binary inner first second =>
      rw [attach]
      split
      · rename_i h
        exact ⟨inner, _, _, rfl, h⟩
      · exact ⟨op, _, _, rfl, rfl⟩
  | _ => exact ⟨op, _, _, rfl, rfl⟩

theorem binary_pieces (op : BinaryOp) (left right : Expr) (style : Style) (depth : Nat) :
    (Expr.binary op left right).pieces style depth =
      enclosed (left.inParens || left.needsParens (.left op)) (left.pieces style depth)
        ++ spacedSign op.sign
        ++ enclosed (right.inParens || right.needsParens (.right op))
            (right.pieces style depth) := by
  rw [Expr.pieces]

/-- A joined operand is printed in front of the operator, and the operation after it. -/
theorem attach_pieces {op : BinaryOp} (left : Expr) (style : Style) (depth : Nat)
    (hleft : op.isRightAssociative = false) : (right : Expr) →
    (attach op left right).pieces style depth =
      enclosed (left.inParens || left.needsParens (.left op)) (left.pieces style depth)
        ++ spacedSign op.sign
        ++ enclosed (!right.hasPrecedence op.precedence
              && (right.inParens || right.needsParens (.right op)))
            (right.pieces style depth)
  | .binary inner first second => by
      by_cases h : inner.precedence = op.precedence
      · rcases attach_isBinary op left first with ⟨top, l, r, htop, hprecedence⟩
        have hpieces := attach_pieces left style depth hleft first
        have hopen : ((attach op left first).inParens ||
            (attach op left first).needsParens (.left inner)) = false := by
          have hassociative := isRightAssociative_of_precedence hprecedence
          simp [htop, Expr.inParens, Expr.needsParens, BinaryOp.needsParens, hprecedence, h,
            hassociative, hleft]
        have hfirst : (!first.hasPrecedence op.precedence
              && (first.inParens || first.needsParens (.right op))) =
            (first.inParens || first.needsParens (.left inner)) := by
          cases hp : first.hasPrecedence op.precedence with
          | false => simp [needsParens_side h hleft hp]
          | true =>
              cases first with
              | binary other a b =>
                  have heq : other.precedence = op.precedence := by
                    simpa [Expr.hasPrecedence] using hp
                  have hassociative := isRightAssociative_of_precedence heq
                  simp [Expr.inParens, Expr.needsParens, BinaryOp.needsParens, heq, h,
                    hassociative, hleft]
              | _ => simp [Expr.hasPrecedence] at hp
        rw [attach, if_pos h, binary_pieces, hopen, hpieces, hfirst]
        simp [Expr.hasPrecedence, h, Expr.pieces, enclosed]
      · have hne : (Expr.binary inner first second).hasPrecedence op.precedence = false := by
          simpa [Expr.hasPrecedence] using h
        rw [attach_of_ne hne, hne, binary_pieces]
        simp
  | .name _ | .string _ | .number .. | .boolean _ | .nil | .vararg .. | .function .. | .table _
  | .unary .. | .member .. | .index .. | .call .. => by
      simp [attach, Expr.pieces, Expr.hasPrecedence]

/-- What operations gather from their operands in order, a joined operand leaves in order. -/
theorem attach_gathered {f : Expr → List β}
    (hf : ∀ op left right, f (.binary op left right) = f left ++ f right) (op : BinaryOp)
    (left : Expr) : (right : Expr) → f (attach op left right) = f left ++ f right
  | .binary inner first second => by
      rw [attach]
      split
      · rw [hf, attach_gathered hf op left first, hf, List.append_assoc]
      · rw [hf]
  | .name _ | .string _ | .number .. | .boolean _ | .nil | .vararg .. | .function .. | .table _
  | .unary .. | .member .. | .index .. | .call .. => hf op left _

theorem regrouped_gathered {f : Expr → List β}
    (hf : ∀ op left right, f (.binary op left right) = f left ++ f right) (op : BinaryOp)
    (left right : Expr) : f (regrouped op left right) = f left ++ f right := by
  unfold regrouped
  split
  · split
    · exact attach_gathered hf op left _
    · exact hf op left _
  · exact hf op left right

/-- Operators that go without parentheses to the right of one operator need them at the same
positions as that operator. -/
theorem needsParens_of_regroups {op inner : BinaryOp}
    (hprecedence : inner.precedence = op.precedence)
    (h : regroups op inner = true) (position : Position) :
    inner.needsParens position = op.needsParens position := by
  have hassociative := isRightAssociative_of_precedence hprecedence
  have hleft := leftAssociative_of_regroups h
  cases position with
  | free => rfl
  | operand => simp [BinaryOp.needsParens, hprecedence]
  | left parent => simp [BinaryOp.needsParens, hprecedence, hassociative, hleft]
  | right parent =>
      have hparent : op.precedence = parent.precedence →
          regroups parent inner = regroups parent op := by
        rcases regroups_cases h with rfl | ⟨rfl, rfl | rfl⟩ <;>
          cases parent <;> simp [BinaryOp.precedence, regroups]
      by_cases heq : op.precedence = parent.precedence
      · simp [BinaryOp.needsParens, hprecedence, hassociative, heq, hparent heq]
      · simp [BinaryOp.needsParens, hprecedence, heq]

theorem keepsLayout_regrouped : KeepsLayout regrouped where
  pieces op left right style depth := by
    unfold regrouped
    split
    · rename_i inner first second
      split
      · rename_i h
        have hleft := leftAssociative_of_regroups h.2
        have hsame : (Expr.binary inner first second).hasPrecedence op.precedence = true := by
          simp [Expr.hasPrecedence, h.1]
        have hopen : ((Expr.binary inner first second).inParens ||
            (Expr.binary inner first second).needsParens (.right op)) = false := by
          simp [Expr.inParens, Expr.needsParens, BinaryOp.needsParens, h.1, h.2]
        rw [attach_pieces left style depth hleft, binary_pieces op left, hsame, hopen]
        rfl
      · rfl
    · rfl
  needsParens op left right position := by
    unfold regrouped
    split
    · rename_i inner first second
      split
      · rename_i h
        rw [attach, if_pos h.1]
        exact needsParens_of_regroups h.1 h.2 position
      · rfl
    · rfl
  isBinary op left right := by
    unfold regrouped
    split
    · split
      · rename_i inner _ _ h
        rw [attach, if_pos h.1]
        exact ⟨_, _, _, rfl⟩
      · exact ⟨_, _, _, rfl⟩
    · exact ⟨_, _, _, rfl⟩
  faults op left right encoding rest := by
    rw [regrouped_gathered (f := Expr.faults encoding rest) fun _ _ _ => by rw [Expr.faults],
      List.append_eq_nil_iff]

/-!
## What is printed
-/

section Layout

variable {join : BinaryOp → Expr → Expr → Expr}

theorem inParens_stripped (keeps : KeepsLayout join) (e : Expr) :
    (e.stripped join).inParens = e.inParens := by
  cases e with
  | binary op left right =>
      rcases keeps.isBinary op (left.stripped join) (right.stripped join) with ⟨_, _, _, h⟩
      rw [Expr.stripped, h]
      rfl
  | _ => rfl

theorem isPrefixed_stripped (keeps : KeepsLayout join) (e : Expr) :
    (e.stripped join).isPrefixed = e.isPrefixed := by
  cases e with
  | binary op left right =>
      rcases keeps.isBinary op (left.stripped join) (right.stripped join) with ⟨_, _, _, h⟩
      rw [Expr.stripped, h]
      rfl
  | _ => rfl

theorem needsParens_stripped (keeps : KeepsLayout join) (position : Position) (e : Expr) :
    (e.stripped join).needsParens position = e.needsParens position := by
  cases e with
  | binary op left right => exact keeps.needsParens op _ _ position
  | _ => rfl

theorem expr_startsWithParen_stripped (keeps : KeepsLayout join) : (e : Expr) →
    (e.stripped join).startsWithParen = e.startsWithParen
  | .binary op left right => by
      rcases keeps.isBinary op (left.stripped join) (right.stripped join) with ⟨_, _, _, h⟩
      rw [Expr.stripped, h]
      rfl
  | .member base _ _ => by
      rw [Expr.stripped, Expr.startsWithParen, expr_startsWithParen_stripped keeps base,
        Expr.startsWithParen]
  | .index base _ => by
      rw [Expr.stripped, Expr.startsWithParen, expr_startsWithParen_stripped keeps base,
        Expr.startsWithParen]
  | .call base _ _ _ => by
      rw [Expr.stripped, Expr.startsWithParen, expr_startsWithParen_stripped keeps base,
        Expr.startsWithParen]
  | .name _ | .string _ | .number .. | .boolean _ | .nil | .vararg .. | .function .. | .table _
  | .unary .. => rfl

theorem startsWithParen_stripped (keeps : KeepsLayout join) (s : Stat) :
    (s.stripped join).startsWithParen = s.startsWithParen := by
  cases s with
  | call e => exact expr_startsWithParen_stripped keeps e
  | assign targets values =>
      cases targets with
      | nil => rfl
      | cons e rest => exact expr_startsWithParen_stripped keeps e
  | _ => rfl

theorem isEmpty_strippedExprs (es : List Expr) : (strippedExprs join es).isEmpty = es.isEmpty := by
  cases es <;> rfl

theorem isSome_strippedOption (o : Option Expr) : (strippedOption join o).isSome = o.isSome := by
  cases o <;> rfl

theorem closedBody_stripped (depth : Nat) (closing : String) (body : List Stat)
    (pieces : List Piece) :
    closedBody depth closing (strippedBlock join body) pieces =
      closedBody depth closing body pieces := by
  cases body <;> rfl

theorem localVar_pieces_stripped (v : LocalVar) : v.stripped.pieces = v.pieces := by
  rcases v with ⟨name, attrib⟩
  cases attrib <;> rfl

mutual

theorem Expr.pieces_stripped (keeps : KeepsLayout join) (style : Style) (depth : Nat) : (e : Expr) →
    (e.stripped join).pieces style depth = e.pieces style depth
  | .name n => rfl
  | .string _ => rfl
  | .number .. => rfl
  | .boolean _ => rfl
  | .nil => rfl
  | .vararg .. => rfl
  | .function parameters body => by
      simp only [Expr.stripped, Expr.pieces, exprRows_stripped keeps style depth parameters,
        blockPieces_stripped keeps style (depth + 1) false body, closedBody_stripped]
  | .table fields => by
      simp only [Expr.stripped, Expr.pieces, fieldRows_stripped keeps style (depth + 1) fields]
  | .binary op left right => by
      rw [Expr.stripped, keeps.pieces, Expr.pieces, Expr.pieces,
        inParens_stripped keeps, inParens_stripped keeps, needsParens_stripped keeps,
        needsParens_stripped keeps, left.pieces_stripped keeps style depth,
        right.pieces_stripped keeps style depth]
  | .unary op operand => by
      simp only [Expr.stripped, Expr.pieces, inParens_stripped keeps, needsParens_stripped keeps,
        operand.pieces_stripped keeps style depth]
  | .member base indexer n => by
      simp only [Expr.stripped, Expr.pieces, inParens_stripped keeps, isPrefixed_stripped keeps,
        base.pieces_stripped keeps style depth, Name.stripped]
  | .index base key => by
      simp only [Expr.stripped, Expr.pieces, inParens_stripped keeps, isPrefixed_stripped keeps,
        base.pieces_stripped keeps style depth, key.pieces_stripped keeps style depth]
  | .call base arguments _ _ => by
      simp only [Expr.stripped, Expr.pieces, inParens_stripped keeps, isPrefixed_stripped keeps,
        base.pieces_stripped keeps style depth, arguments.pieces_stripped keeps style depth]

theorem Args.pieces_stripped (keeps : KeepsLayout join) (style : Style) (depth : Nat) :
    (arguments : Args) →
    (arguments.stripped join).pieces style depth = arguments.pieces style depth
  | .list arguments => by
      simp only [Args.stripped, Args.pieces, exprRows_stripped keeps style depth arguments]
  | .table fields => by
      simp only [Args.stripped, Args.pieces, fieldRows_stripped keeps style (depth + 1) fields]
  | .string _ => rfl

theorem Field.pieces_stripped (keeps : KeepsLayout join) (style : Style) (depth : Nat) :
    (f : Field) →
    (f.stripped join).pieces style depth = f.pieces style depth
  | .keyed key value => by
      simp only [Field.stripped, Field.pieces, inParens_stripped keeps,
        key.pieces_stripped keeps style depth, value.pieces_stripped keeps style depth]
  | .named n value => by
      simp only [Field.stripped, Field.pieces, inParens_stripped keeps,
        value.pieces_stripped keeps style depth, Name.stripped]
  | .positional value => by
      simp only [Field.stripped, Field.pieces, inParens_stripped keeps,
        value.pieces_stripped keeps style depth]

theorem Stat.pieces_stripped (keeps : KeepsLayout join) (style : Style) (depth : Nat) : (s : Stat) →
    (s.stripped join).pieces style depth = s.pieces style depth
  | .label _ => rfl
  | .goto _ => rfl
  | .leave => rfl
  | .ret [] => rfl
  | .ret (e :: values) => by
      have hrows := exprRows_stripped keeps style depth (e :: values)
      simp only [strippedExprs] at hrows
      simp only [Stat.stripped, strippedExprs, Stat.pieces, hrows]
  | .choice clauses => by
      simp only [Stat.stripped, Stat.pieces, clausePieces_stripped keeps style depth clauses]
  | .whileLoop condition body => by
      simp only [Stat.stripped, Stat.pieces, inParens_stripped keeps, closedBody_stripped,
        condition.pieces_stripped keeps style depth,
        blockPieces_stripped keeps style (depth + 1) false body]
  | .block body => by
      simp only [Stat.stripped, Stat.pieces, closedBody_stripped,
        blockPieces_stripped keeps style (depth + 1) false body]
  | .repeatLoop body condition => by
      simp only [Stat.stripped, Stat.pieces, inParens_stripped keeps, closedBody_stripped,
        condition.pieces_stripped keeps style depth,
        blockPieces_stripped keeps style (depth + 1) false body]
  | .locals vars values => by
      simp only [Stat.stripped, Stat.pieces, isEmpty_strippedExprs,
        exprRows_stripped keeps style depth values, List.map_map, Function.comp_def,
        localVar_pieces_stripped]
  | .assign targets values => by
      simp only [Stat.stripped, Stat.pieces, exprRows_stripped keeps style depth targets,
        exprRows_stripped keeps style depth values]
  | .call e => by
      simp only [Stat.stripped, Stat.pieces, inParens_stripped keeps,
        e.pieces_stripped keeps style depth]
  | .function _ name parameters body => by
      simp only [Stat.stripped, Stat.pieces, closedBody_stripped,
        optionPieces_stripped keeps style depth name,
        exprRows_stripped keeps style depth parameters,
        blockPieces_stripped keeps style (depth + 1) false body]
  | .forRange counter first last step body => by
      simp only [Stat.stripped, Stat.pieces, closedBody_stripped, inParens_stripped keeps,
        isSome_strippedOption, first.pieces_stripped keeps style depth,
        last.pieces_stripped keeps style depth, optionPieces_stripped keeps style depth step,
        blockPieces_stripped keeps style (depth + 1) false body, Name.stripped]
  | .forEach vars iterators body => by
      simp only [Stat.stripped, Stat.pieces, closedBody_stripped, namePieces, List.map_map,
        Function.comp_def, Name.stripped, exprRows_stripped keeps style depth iterators,
        blockPieces_stripped keeps style (depth + 1) false body]

theorem Clause.pieces_stripped (keeps : KeepsLayout join) (style : Style) (depth : Nat) :
    (c : Clause) →
    (c.stripped join).pieces style depth = c.pieces style depth
  | .first condition body => by
      simp only [Clause.stripped, Clause.pieces, inParens_stripped keeps,
        condition.pieces_stripped keeps style depth,
        blockPieces_stripped keeps style (depth + 1) false body]
  | .next condition body => by
      simp only [Clause.stripped, Clause.pieces, inParens_stripped keeps,
        condition.pieces_stripped keeps style depth,
        blockPieces_stripped keeps style (depth + 1) false body]
  | .otherwise body => by
      simp only [Clause.stripped, Clause.pieces,
        blockPieces_stripped keeps style (depth + 1) false body]

theorem optionPieces_stripped (keeps : KeepsLayout join) (style : Style) (depth : Nat) :
    (o : Option Expr) →
    optionPieces style depth (strippedOption join o) = optionPieces style depth o
  | none => rfl
  | some e => by
      simp only [strippedOption, optionPieces, inParens_stripped keeps,
        e.pieces_stripped keeps style depth]

theorem exprRows_stripped (keeps : KeepsLayout join) (style : Style) (depth : Nat) :
    (es : List Expr) →
    exprRows style depth (strippedExprs join es) = exprRows style depth es
  | [] => rfl
  | e :: rest => by
      simp only [strippedExprs, exprRows, inParens_stripped keeps,
        e.pieces_stripped keeps style depth, exprRows_stripped keeps style depth rest]

theorem fieldRows_stripped (keeps : KeepsLayout join) (style : Style) (depth : Nat) :
    (fs : List Field) →
    fieldRows style depth (strippedFields join fs) = fieldRows style depth fs
  | [] => rfl
  | f :: rest => by
      simp only [strippedFields, fieldRows, f.pieces_stripped keeps style depth,
        fieldRows_stripped keeps style depth rest]

theorem blockPieces_stripped (keeps : KeepsLayout join) (style : Style) (depth : Nat)
    (follows : Bool) : (body : List Stat) →
    blockPieces style depth follows (strippedBlock join body) = blockPieces style depth follows body
  | [] => rfl
  | s :: rest => by
      simp only [strippedBlock, blockPieces, startsWithParen_stripped keeps,
        s.pieces_stripped keeps style depth, blockPieces_stripped keeps style depth true rest]

theorem clausePieces_stripped (keeps : KeepsLayout join) (style : Style) (depth : Nat) :
    (clauses : List Clause) →
    clausePieces style depth (strippedClauses join clauses) = clausePieces style depth clauses
  | [] => rfl
  | c :: rest => by
      simp only [strippedClauses, clausePieces, c.pieces_stripped keeps style depth,
        clausePieces_stripped keeps style depth rest]

end

end Layout

/-!
## Faults

What is wrong with a tree does not depend on lines, marks and groups, but for the lines that
are reported.
-/

theorem stringLit_faults_stripped (encoding : Encoding) (literal : StringLit) :
    literal.stripped.faults encoding = [] ↔ literal.faults encoding = [] := by
  have hbytes : literal.stripped.bytes encoding = literal.bytes encoding := rfl
  unfold StringLit.faults
  rw [hbytes]
  cases literal.bytes encoding <;> simp

theorem numeral_faults_line (numeral : Numeral) (line : Nat) :
    numeral.faults 0 = [] ↔ numeral.faults line = [] := by
  cases numeral with
  | written raw =>
      simp only [Numeral.faults]
      cases numeralValue? raw.toList <;> simp
  | value x => simp [Numeral.faults]

theorem localVar_faults_stripped (v : LocalVar) : v.stripped.faults = [] ↔ v.faults = [] := by
  rcases v with ⟨name, attrib⟩
  cases attrib with
  | none => simp [LocalVar.stripped, LocalVar.faults]
  | some a =>
      simp only [LocalVar.stripped, LocalVar.faults, Option.map_some, Attribute.stripped]
      split <;> simp

theorem takesRest_stripped {join : BinaryOp → Expr → Expr → Expr} (keeps : KeepsLayout join)
    (parameters : List Expr) :
    takesRest (strippedExprs join parameters) = takesRest parameters := by
  induction parameters with
  | nil => rfl
  | cons e rest ih =>
      unfold takesRest at ih ⊢
      rw [strippedExprs, List.any_cons, List.any_cons, ih]
      cases e with
      | binary op left right =>
          rcases keeps.isBinary op (left.stripped join) (right.stripped join) with ⟨_, _, _, h⟩
          rw [Expr.stripped, h]
      | _ => rfl

section Faults

variable {join : BinaryOp → Expr → Expr → Expr}

mutual

theorem Expr.faults_stripped (keeps : KeepsLayout join) (encoding : Encoding) (rest : Bool) :
    (e : Expr) →
    ((e.stripped join).faults encoding rest = [] ↔ e.faults encoding rest = [])
  | .name _ => Iff.rfl
  | .string literal => stringLit_faults_stripped encoding literal
  | .number numeral line => numeral_faults_line numeral line
  | .boolean _ => Iff.rfl
  | .nil => Iff.rfl
  | .vararg _ line => by
      cases rest <;> simp [Expr.stripped, Expr.faults]
  | .function parameters body => by
      simp only [Expr.stripped, Expr.faults, takesRest_stripped keeps,
        blockFaults_stripped keeps encoding _ body]
  | .table fields => by
      simp only [Expr.stripped, Expr.faults, fieldFaults_stripped keeps encoding rest fields]
  | .binary op left right => by
      rw [Expr.stripped, keeps.faults, Expr.faults, List.append_eq_nil_iff,
        left.faults_stripped keeps encoding rest, right.faults_stripped keeps encoding rest]
  | .unary _ operand => by
      simp only [Expr.stripped, Expr.faults, operand.faults_stripped keeps encoding rest]
  | .member base _ _ => by
      simp only [Expr.stripped, Expr.faults, base.faults_stripped keeps encoding rest]
  | .index base key => by
      simp only [Expr.stripped, Expr.faults, List.append_eq_nil_iff,
        base.faults_stripped keeps encoding rest, key.faults_stripped keeps encoding rest]
  | .call base arguments _ _ => by
      simp only [Expr.stripped, Expr.faults, List.append_eq_nil_iff,
        base.faults_stripped keeps encoding rest, arguments.faults_stripped keeps encoding rest]

theorem Args.faults_stripped (keeps : KeepsLayout join) (encoding : Encoding) (rest : Bool) :
    (arguments : Args) →
    ((arguments.stripped join).faults encoding rest = [] ↔ arguments.faults encoding rest = [])
  | .list arguments => by
      simp only [Args.stripped, Args.faults, exprFaults_stripped keeps encoding rest arguments]
  | .table fields => by
      simp only [Args.stripped, Args.faults, fieldFaults_stripped keeps encoding rest fields]
  | .string literal => stringLit_faults_stripped encoding literal

theorem Field.faults_stripped (keeps : KeepsLayout join) (encoding : Encoding) (rest : Bool) :
    (f : Field) →
    ((f.stripped join).faults encoding rest = [] ↔ f.faults encoding rest = [])
  | .keyed key value => by
      simp only [Field.stripped, Field.faults, List.append_eq_nil_iff,
        key.faults_stripped keeps encoding rest, value.faults_stripped keeps encoding rest]
  | .named _ value => by
      simp only [Field.stripped, Field.faults, value.faults_stripped keeps encoding rest]
  | .positional value => by
      simp only [Field.stripped, Field.faults, value.faults_stripped keeps encoding rest]

theorem Stat.faults_stripped (keeps : KeepsLayout join) (encoding : Encoding) (rest : Bool) :
    (s : Stat) →
    ((s.stripped join).faults encoding rest = [] ↔ s.faults encoding rest = [])
  | .label _ => Iff.rfl
  | .goto _ => Iff.rfl
  | .leave => Iff.rfl
  | .ret values => by
      simp only [Stat.stripped, Stat.faults, exprFaults_stripped keeps encoding rest values]
  | .choice clauses => by
      simp only [Stat.stripped, Stat.faults, clauseFaults_stripped keeps encoding rest clauses]
  | .whileLoop condition body => by
      simp only [Stat.stripped, Stat.faults, List.append_eq_nil_iff,
        condition.faults_stripped keeps encoding rest,
        blockFaults_stripped keeps encoding rest body]
  | .block body => by
      simp only [Stat.stripped, Stat.faults, blockFaults_stripped keeps encoding rest body]
  | .repeatLoop body condition => by
      simp only [Stat.stripped, Stat.faults, List.append_eq_nil_iff,
        condition.faults_stripped keeps encoding rest,
        blockFaults_stripped keeps encoding rest body]
  | .locals vars values => by
      simp only [Stat.stripped, Stat.faults, List.append_eq_nil_iff, List.flatMap_eq_nil_iff,
        List.forall_mem_map, localVar_faults_stripped,
        exprFaults_stripped keeps encoding rest values]
  | .assign targets values => by
      simp only [Stat.stripped, Stat.faults, List.append_eq_nil_iff,
        exprFaults_stripped keeps encoding rest targets,
        exprFaults_stripped keeps encoding rest values]
  | .call e => by
      simp only [Stat.stripped, Stat.faults, e.faults_stripped keeps encoding rest]
  | .function _ name parameters body => by
      simp only [Stat.stripped, Stat.faults, List.append_eq_nil_iff, takesRest_stripped keeps,
        optionFaults_stripped keeps encoding rest name, blockFaults_stripped keeps encoding _ body]
  | .forRange _ first last step body => by
      simp only [Stat.stripped, Stat.faults, List.append_eq_nil_iff,
        first.faults_stripped keeps encoding rest, last.faults_stripped keeps encoding rest,
        optionFaults_stripped keeps encoding rest step,
        blockFaults_stripped keeps encoding rest body]
  | .forEach _ iterators body => by
      simp only [Stat.stripped, Stat.faults, List.append_eq_nil_iff,
        exprFaults_stripped keeps encoding rest iterators,
        blockFaults_stripped keeps encoding rest body]

theorem Clause.faults_stripped (keeps : KeepsLayout join) (encoding : Encoding) (rest : Bool) :
    (c : Clause) →
    ((c.stripped join).faults encoding rest = [] ↔ c.faults encoding rest = [])
  | .first condition body => by
      simp only [Clause.stripped, Clause.faults, List.append_eq_nil_iff,
        condition.faults_stripped keeps encoding rest,
        blockFaults_stripped keeps encoding rest body]
  | .next condition body => by
      simp only [Clause.stripped, Clause.faults, List.append_eq_nil_iff,
        condition.faults_stripped keeps encoding rest,
        blockFaults_stripped keeps encoding rest body]
  | .otherwise body => by
      simp only [Clause.stripped, Clause.faults, blockFaults_stripped keeps encoding rest body]

theorem optionFaults_stripped (keeps : KeepsLayout join) (encoding : Encoding) (rest : Bool) :
    (o : Option Expr) →
    (optionFaults encoding rest (strippedOption join o) = [] ↔ optionFaults encoding rest o = [])
  | none => Iff.rfl
  | some e => by
      simp only [strippedOption, optionFaults, e.faults_stripped keeps encoding rest]

theorem exprFaults_stripped (keeps : KeepsLayout join) (encoding : Encoding) (rest : Bool) :
    (es : List Expr) →
    (exprFaults encoding rest (strippedExprs join es) = [] ↔ exprFaults encoding rest es = [])
  | [] => Iff.rfl
  | e :: more => by
      simp only [strippedExprs, exprFaults, List.append_eq_nil_iff,
        e.faults_stripped keeps encoding rest, exprFaults_stripped keeps encoding rest more]

theorem fieldFaults_stripped (keeps : KeepsLayout join) (encoding : Encoding) (rest : Bool) :
    (fs : List Field) →
    (fieldFaults encoding rest (strippedFields join fs) = [] ↔ fieldFaults encoding rest fs = [])
  | [] => Iff.rfl
  | f :: more => by
      simp only [strippedFields, fieldFaults, List.append_eq_nil_iff,
        f.faults_stripped keeps encoding rest, fieldFaults_stripped keeps encoding rest more]

theorem blockFaults_stripped (keeps : KeepsLayout join) (encoding : Encoding) (rest : Bool) :
    (body : List Stat) →
    (blockFaults encoding rest (strippedBlock join body) = [] ↔
      blockFaults encoding rest body = [])
  | [] => Iff.rfl
  | s :: more => by
      simp only [strippedBlock, blockFaults, List.append_eq_nil_iff,
        s.faults_stripped keeps encoding rest, blockFaults_stripped keeps encoding rest more]

theorem clauseFaults_stripped (keeps : KeepsLayout join) (encoding : Encoding) (rest : Bool) :
    (clauses : List Clause) →
    (clauseFaults encoding rest (strippedClauses join clauses) = [] ↔
      clauseFaults encoding rest clauses = [])
  | [] => Iff.rfl
  | c :: more => by
      simp only [strippedClauses, clauseFaults, List.append_eq_nil_iff,
        c.faults_stripped keeps encoding rest, clauseFaults_stripped keeps encoding rest more]

end

end Faults

end Lua
end LuaBundle
