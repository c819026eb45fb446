import LuaBundle.Proofs.Grammar.Openings
import LuaBundle.Proofs.Printing.Returning
import LuaBundle.Proofs.Printing.WrittenNames
import LuaBundle.Proofs.Tree.Sound

/-!
# Necessary parentheses

The layout of an expression has no parentheses to spare.  A tree is written with no more
opening parentheses than it was read from, so what is read from pieces that lack a pair is a
tree that is written with fewer of them: another one than the full pieces give.
-/

namespace LuaBundle
namespace Lua

open Text

section Scripts

variable {encoding : Encoding} {style : Style}

theorem sound_of_parse {source : List Char} {c : Chunk} (h : parse encoding source = .ok c) :
    (Part.block c.body).Sound .utf8 encoding := by
  rcases parse_ok h with ⟨_, body, _, _, hfaults, hbody, _⟩
  have hstripped := block_stripped_resolve [] body
  rw [← hbody] at hstripped
  exact sound_block (wellFormed_of_parse h)
    (faults_eq_nil_congr keepsLayout_binary keepsLayout_binary hstripped hfaults)

/-- What is read from a text has no more opening parentheses than the pieces that the text
holds. -/
theorem ReadsAs.openings_le {row : List Piece} {text : List Char} {e : Expr}
    (h : ReadsAs encoding text e) (hrow : Holds row text) :
    rowOpenings style 0 e ≤ openings row := by
  rcases h with ⟨c, hparse, hc⟩
  rcases hrow with ⟨lexemes, hlex, front, t, hts, _, hreads⟩
  rcases parse_ok hparse with ⟨lexemes', body, hlex', hprogram, _, hbody, _⟩
  cases hlex.symm.trans hlex'
  -- The tree of the script has lines and marks that the body read from the tokens has not.
  have hsame : blockPieces style 0 false [.ret [e]] = blockPieces style 0 false body := by
    rw [← hc, hbody, ← blockPieces_stripped keepsLayout_binary, block_stripped_resolve,
      blockPieces_stripped keepsLayout_binary]
  have hcost : openings (blockPieces style 0 false body) ≤ _ :=
    program_openings hlex hprogram hts 0 false
  rw [← hsame, blockPieces_ret, hreads.openings] at hcost
  simpa [rowOpenings] using hcost

theorem rowOpenings_congr {join join' : BinaryOp → Expr → Expr → Expr}
    (keeps : KeepsLayout join) (keeps' : KeepsLayout join') {e e' : Expr}
    (h : e.stripped join = e'.stripped join') : rowOpenings style 0 e = rowOpenings style 0 e' := by
  unfold rowOpenings
  rw [← inParens_stripped keeps, ← e.pieces_stripped keeps, h, inParens_stripped keeps',
    e'.pieces_stripped keeps']

/-- A text that holds the pieces of an expression of a script is read as an expression, up to
the groups that a layout does not show, but for the selection of a method. -/
theorem reads_iff {spelling : Encoding} {e : Expr} {text : List Char} {callee : Bool}
    (he : e.WellFormed spelling callee) (hfaults : e.faults encoding true = [])
    (htext : Holds (enclosed e.inParens (e.pieces style 0)) text) :
    ((∃ again, ReadsAs encoding text again) ↔ ∀ base n, e ≠ .member base .colon n) ∧
      ∀ again, ReadsAs encoding text again → again.stripped .binary = e.stripped regrouped := by
  have hcallee : e.WellFormed spelling true := by
    cases callee with
    | true => exact he
    | false => exact wellFormed_callee he
  by_cases hmethod : ∃ base n, e = .member base .colon n
  · rcases hmethod with ⟨base, n, rfl⟩
    have hunread : ∀ again, ¬ReadsAs encoding text again := fun again => htext.unread hcallee
    refine ⟨⟨fun ⟨again, h⟩ => absurd h (hunread again), fun h => absurd rfl (h base n)⟩, ?_⟩
    exact fun again h => absurd h (hunread again)
  · have hne : ∀ base n, e ≠ .member base .colon n := fun base n h => hmethod ⟨base, n, h⟩
    rcases htext.reads (wellFormed_of_callee hcallee hne) hfaults with ⟨found, hfound, hstripped⟩
    refine ⟨⟨fun _ => hne, fun _ => ⟨found, hfound⟩⟩, fun again hagain => ?_⟩
    rw [hagain.unique hfound]
    exact hstripped

/-- Every pair of parentheses that an expression of a script is printed with is necessary.
The pieces of the expression are held by its text, where its names may be printed.  A text
that holds them is read as an expression, unless they only select a method, which a call
around them does not do without.  Without an opening parenthesis and a closing one behind it
the pieces are still held by some text, but what is read from such a text, if it is read as
an expression, is another one than before, whatever the lines and marks. -/
theorem parentheses_necessary {source : List Char} {c : Chunk}
    (h : parse encoding source = .ok c) {e : Expr}
    (he : .part (.expr e) ∈ (Element.part (.block c.body)).preorder) (style : Style) :
    let row := enclosed e.inParens (e.pieces style 0)
    (Prints style e.names → Holds row (e.print style)) ∧
      ∀ text, Holds row text →
        ((∃ again, ReadsAs encoding text again) ↔ ∀ base n, e ≠ .member base .colon n) ∧
          ∀ front inner back, row = front ++ .token "(" :: (inner ++ .token ")" :: back) →
            (∃ less, Holds (front ++ (inner ++ back)) less) ∧
              ∀ less again other, Holds (front ++ (inner ++ back)) less →
                ReadsAs encoding text again → ReadsAs encoding less other →
                  other.stripped .binary ≠ again.stripped .binary := by
  intro row
  rcases (sound_of_parse h).within he with ⟨rest, ⟨callee, hwell⟩, hfaults⟩
  refine ⟨holds_print hwell, fun text htext => ?_⟩
  rcases reads_iff hwell (e.faults_outside hfaults) htext with ⟨hiff, hread⟩
  refine ⟨hiff, fun front inner back hrow => ⟨htext.some ?_, ?_⟩⟩
  · intro piece hpiece
    rw [hrow]
    simp only [List.mem_append, List.mem_cons] at hpiece ⊢
    rcases hpiece with hfront | hinner | hback
    · exact Or.inl hfront
    · exact Or.inr (Or.inr (Or.inl hinner))
    · exact Or.inr (Or.inr (Or.inr (Or.inr hback)))
  · intro less again other hless hagain hother hsame
    -- The same tree would cost as much as the row, but the pieces have one parenthesis less.
    have hcost : rowOpenings style 0 other ≤ openings (front ++ (inner ++ back)) :=
      hother.openings_le hless
    have hfull : rowOpenings style 0 other = openings row :=
      calc rowOpenings style 0 other
          = rowOpenings style 0 again :=
            rowOpenings_congr keepsLayout_binary keepsLayout_binary hsame
        _ = rowOpenings style 0 e :=
            rowOpenings_congr keepsLayout_binary keepsLayout_regrouped (hread again hagain)
        _ = openings row := (openings_row e).symm
    rw [hfull, hrow] at hcost
    simp only [openings_append, openings_token, beq_self_eq_true, Bool.toNat_true] at hcost
    omega

end Scripts

def returnedValue : List Stat → Option Expr
  | [.ret [e]] => some e
  | _ => none

theorem returnedValue_eq {body : List Stat} {e : Expr} (h : returnedValue body = some e) :
    body = [.ret [e]] := by
  unfold returnedValue at h
  split at h
  · cases h
    rfl
  · cases h

/-- A product of a sum and of a call: with parentheses around the sum, around the base of the
call and around its arguments. -/
def groupedCall : List Char :=
  "return (a + b) * -(c .. d):e()\n".toList

theorem groupedCall_parentheses :
    ∃ c e, parse .utf8 groupedCall = .ok c ∧
      .part (.expr e) ∈ (Element.part (.block c.body)).preorder ∧
      e.print .compact = "(a+b)*-(c..d):e()".toList ∧
      openings (enclosed e.inParens (e.pieces .compact 0)) = 3 ∧
      ((∃ again, ReadsAs .utf8 (e.print .compact) again) ↔ ∀ base n, e ≠ .member base .colon n) ∧
      ∀ front inner back,
        enclosed e.inParens (e.pieces .compact 0) =
          front ++ .token "(" :: (inner ++ .token ")" :: back) →
        (∃ less, Holds (front ++ (inner ++ back)) less) ∧
          ∀ less again other, Holds (front ++ (inner ++ back)) less →
            ReadsAs .utf8 (e.print .compact) again → ReadsAs .utf8 less other →
              other.stripped .binary ≠ again.stripped .binary := by
  have hparse : ((parse .utf8 groupedCall).toOption.any fun c =>
      (returnedValue c.body).any fun e =>
        e.names.all isAsciiName
          && e.print .compact == "(a+b)*-(c..d):e()".toList
          && openings (enclosed e.inParens (e.pieces .compact 0)) == 3) = true := by
    decide +kernel
  rcases exists_ok_of_any hparse with ⟨c, hc, hcheck⟩
  rcases (Option.any_eq_true _ _).mp hcheck with ⟨e, hvalue, hcheck⟩
  simp only [Bool.and_eq_true, List.all_eq_true, beq_iff_eq] at hcheck
  rcases hcheck with ⟨⟨hnames, hprint⟩, hopenings⟩
  have he : .part (.expr e) ∈ (Element.part (.block c.body)).preorder := by
    rw [returnedValue_eq hvalue]
    refine Element.mem_preorder_of_mem List.mem_cons_self ?_
    exact Element.mem_preorder_of_mem List.mem_cons_self (Element.mem_preorder _)
  have hnecessary := parentheses_necessary hc he .compact
  exact ⟨c, e, hc, he, hprint, hopenings, hnecessary.2 _ (hnecessary.1 fun _ => hnames)⟩

end Lua
end LuaBundle
