import LuaBundle.Proofs.Grammar.FaultOrder
import LuaBundle.Proofs.Grammar.Methods
import LuaBundle.Proofs.Printing.Readable

/-!
# Returned expressions

An expression is read from a text when the statement that returns the text is one that
returns the expression.  A text may hold the pieces of an expression as a page writes them or
with other blanks between them: for any row of words there is one, with a space behind every
word.
-/

namespace LuaBundle
namespace Lua

open Text

def Expr.print (style : Style) (e : Expr) : List Char :=
  ((Page.blank style).expression e).text

/-- A source that returns the expression that a text holds. -/
def returning (text : List Char) : List Char :=
  "return".toList ++ ' ' :: text

/-- A text that is cut into the tokens of some pieces. -/
def Holds (row : List Piece) (text : List Char) : Prop :=
  ∃ lexemes, lex (returning text) = .ok lexemes ∧
    ReadsAll (.token "return" :: row) (tokens lexemes)

def ReadsAs (encoding : Encoding) (text : List Char) (e : Expr) : Prop :=
  ∃ c, parse encoding (returning text) = .ok c ∧ c.body = [.ret [e]]

/-!
## The pieces of an expression
-/

section Returned

variable {style : Style} {encoding : Encoding} {e : Expr} {text : List Char}

theorem blockPieces_ret (style : Style) (e : Expr) :
    blockPieces style 0 false [.ret [e]] =
      .newline 0 :: .token "return" :: .gap :: enclosed e.inParens (e.pieces style 0) := by
  simp [blockPieces, Stat.pieces, exprRows, commaSeparated_cons]

theorem reads_ret {ts : List Token} :
    Reads (blockPieces style 0 false [.ret [e]]) ts ↔
      Reads (.token "return" :: enclosed e.inParens (e.pieces style 0)) ts := by
  rw [blockPieces_ret, reads_newline, reads_spelled, reads_spelled]
  simp only [reads_gap]

theorem holds_of_lexes {row : List Piece} (h : LexesAs false text (ReadsAll row)) :
    Holds row text := by
  have hstarts : ∀ c ∈ (returning text).head?, c ≠ '\uFEFF' ∧ c ≠ '#' := by
    intro c hc
    cases hc
    decide
  have hcut : cutLexeme (returning text) = some (.reserved, ("return".toList, ' ' :: text)) :=
    cutLexeme_of_keyword (by decide) (startsOutside_cons.mpr rfl)
  have hword : Alone .reserved "return" := alone_reserved (Or.inl (by decide))
  have hlexes : LexesAs false (returning text) (ReadsAll (.token "return" :: row)) := by
    refine lexes_token hcut rfl (lexes_space ?_)
    intro fuel line hfuel
    rcases h fuel line hfuel with ⟨lexemes, hlex, front, t, hts, ht, hreads⟩
    refine ⟨lexemes, hlex, fun line => ?_⟩
    rw [hts]
    exact ⟨_ :: front, t, rfl, ht,
      (reads_word hword).mpr ⟨_, front, rfl, rfl, String.ofList_toList, hreads⟩⟩
  have hlex := hlexes (returning text).length 1 (Nat.le_refl _)
  rw [← lex_of_starts hstarts] at hlex
  exact hlex

theorem holds_of_flow {last : Trail}
    (hflow : Trail.clear.Flow style encoding (enclosed e.inParens (e.pieces style 0)) last) :
    Holds (enclosed e.inParens (e.pieces style 0)) (e.print style) := by
  have htext : e.print style =
      (Page.blank style).following (enclosed e.inParens (e.pieces style 0)) ++ [] := by
    rw [List.append_nil]
    exact writeAll_text (Page.blank style) _
  have hcontinues := continues_flow hflow (describes_clear (Page.blank style) rfl) (Or.inl rfl)
  rw [← htext] at hcontinues
  exact holds_of_lexes (hcontinues.2 false)

theorem holds_print {callee : Bool} (he : e.WellFormed encoding callee)
    (hnames : Prints style e.names) :
    Holds (enclosed e.inParens (e.pieces style 0)) (e.print style) := by
  rcases flows_enclosed e.inParens (e.flows style 0 he hnames) .clear (Trail.opens_clear style)
    with ⟨_, _, hflow⟩
  exact holds_of_flow hflow

theorem ret_of_stripped {body : List Stat} {value : Expr}
    (h : strippedBlock .binary body = [.ret [value]]) :
    ∃ e, body = [.ret [e]] ∧ e.stripped .binary = value := by
  cases body with
  | nil => cases h
  | cons s rest =>
      rw [strippedBlock, List.cons.injEq] at h
      rcases h with ⟨hs, hrest⟩
      cases rest with
      | cons next more => cases hrest
      | nil =>
          cases s with
          | ret values =>
              rw [Stat.stripped, Stat.ret.injEq] at hs
              cases values with
              | nil => cases hs
              | cons e others =>
                  rw [strippedExprs, List.cons.injEq] at hs
                  cases others with
                  | cons next more => cases hs.2
                  | nil => exact ⟨e, rfl, hs.1⟩
          | _ => cases hs

/-- What holds the pieces of an expression is read as it, in the groups of its layout. -/
theorem Holds.reads {spelling : Encoding} (h : Holds (enclosed e.inParens (e.pieces style 0)) text)
    (he : e.WellFormed spelling false) (hfaults : e.faults encoding true = []) :
    ∃ again, ReadsAs encoding text again ∧ again.stripped .binary = e.stripped regrouped := by
  have hbody : blockWellFormed spelling [.ret [e]] :=
    ⟨⟨he, trivial⟩, fun _ => rfl, trivial⟩
  have hfaultless : blockFaults encoding true [.ret [e]] = [] := by
    simp [blockFaults, Stat.faults, exprFaults, hfaults]
  rcases h with ⟨lexemes, hlex, front, t, hts, ht, hreads⟩
  rcases program_found hbody (reads_ret.mpr hreads) ht with ⟨found, hprogram, hfound⟩
  rw [← hts] at hprogram
  have hfoundFaults := faults_eq_nil_congr keepsLayout_binary keepsLayout_regrouped hfound
    hfaultless
  rcases parse_of_program hlex hprogram hfoundFaults with ⟨c, hparse, hc⟩
  have hstripped : strippedBlock .binary c.body = [.ret [e.stripped regrouped]] := by
    rw [hc, block_stripped_resolve, hfound]
    rfl
  rcases ret_of_stripped hstripped with ⟨again, hagain, heq⟩
  exact ⟨again, ⟨c, hparse, hagain⟩, heq⟩

theorem Holds.unread {spelling : Encoding} {base again : Expr} {n : Name}
    (h : Holds ((Expr.member base .colon n).pieces style 0) text)
    (he : (Expr.member base .colon n).WellFormed spelling true) :
    ¬ReadsAs encoding text again := by
  rintro ⟨c, hparse, _⟩
  rcases h with ⟨lexemes, hlex, front, t, hts, ht, hreads⟩
  rcases program_method he hreads ht with ⟨line, hprogram⟩
  rcases parse_ok hparse with ⟨lexemes', body, hlex', hfound, _⟩
  cases hlex.symm.trans hlex'
  rw [hts, hprogram] at hfound
  cases hfound

theorem ReadsAs.unique {first second : Expr} (h : ReadsAs encoding text first)
    (h' : ReadsAs encoding text second) : first = second := by
  rcases h with ⟨c, hc, hfirst⟩
  rcases h' with ⟨c', hc', hsecond⟩
  cases hc.symm.trans hc'
  rw [hfirst] at hsecond
  simpa using hsecond

end Returned

/-!
## Words with spaces
-/

/-- A word among pieces: a token, or the sign of a shift to the right, which is two. -/
def IsWord (text : String) : Prop :=
  text = ">>" ∨ ∃ kind : Lexeme.Kind, kind.isTrivia = false ∧ Alone kind text

def Piece.word? : Piece → Option String
  | .token text | .numeral text => some text
  | .gap | .newline _ => none

def spread (row : List Piece) : List Char :=
  (row.filterMap Piece.word?).flatMap fun text => text.toList ++ [' ']

theorem reserved_of_alone {text : String} (h : Alone .reserved text) :
    text ∈ keywords ∨ text ∈ signs := by
  unfold Alone at h
  generalize hkind : Lexeme.Kind.reserved = kind at h
  generalize hcut : (text.toList, ([] : List Char)) = cut at h
  cases firstLexeme_of_cutLexeme h with
  | blank => cases hkind
  | quoted => cases hkind
  | bracketed => cases hkind
  | number => cases hkind
  | comment _ hcomment => rcases cutComment_kind hcomment with rfl | rfl <;> cases hkind
  | word =>
      split at hkind
      · rename_i hmem
        rw [← hcut, String.ofList_toList] at hmem
        exact Or.inl hmem
      · cases hkind
  | bracket =>
      have htext : text.toList = "[".toList := (Prod.mk.inj hcut).1
      rw [String.toList_inj.mp htext]
      exact Or.inr (by decide)
  | sign hsign =>
      rcases Option.map_eq_some_iff.mp hsign with ⟨sign, hfind, hparts⟩
      have htext : text.toList = sign.toList := (Prod.mk.inj (hcut.trans hparts.symm)).1
      rw [String.toList_inj.mp htext]
      exact Or.inr (List.mem_of_find?_eq_some hfind)

theorem cutLexeme_spaced {kind : Lexeme.Kind} {text : String} (h : Alone kind text)
    (hkind : kind.isTrivia = false) (rest : List Char) :
    cutLexeme (text.toList ++ ' ' :: rest) = some (kind, (text.toList, ' ' :: rest)) := by
  cases kind with
  | name => exact h.cutLexeme_append (startsOutside_cons.mpr rfl)
  | number => exact h.cutLexeme_append (startsOutside_cons.mpr rfl)
  | string => exact h.cutLexeme_append trivial
  | reserved =>
      have hspace : ∀ sign ∈ signs, joinsSign sign ' ' = false := by decide
      rcases reserved_of_alone h with hkeyword | hsign
      · exact cutLexeme_of_keyword hkeyword (startsOutside_cons.mpr rfl)
      · exact cutLexeme_of_sign hsign (startsOutside_cons.mpr (hspace text hsign))
  | finish => exact absurd rfl (kind_of_cutLexeme h)
  | _ => cases hkind

section Spread

variable {row : List Piece} {text : String} {good : List Token → Prop}

theorem LexesAs.mono {adjoins : Bool} {text : List Char} {better : List Token → Prop}
    (h : LexesAs adjoins text better) (hgood : ∀ ts, better ts → good ts) :
    LexesAs adjoins text good := by
  intro fuel line hfuel
  rcases h fuel line hfuel with ⟨lexemes, hlex, hts⟩
  exact ⟨lexemes, hlex, hgood _ hts⟩

theorem lexes_word (h : IsWord text) {rest : List Char} (hrest : LexesAs false rest (ReadsAll row))
    (adjoins : Bool) :
    LexesAs adjoins (text.toList ++ ' ' :: rest) fun ts =>
      ∃ front more, ts = front ++ more ∧ Spells text front ∧ ReadsAll row more := by
  rcases h with rfl | ⟨kind, hkind, halone⟩
  · have hfirst : cutLexeme ('>' :: '>' :: ' ' :: rest) =
        some (.reserved, (['>'], '>' :: ' ' :: rest)) :=
      cutLexeme_of_sign (show ">" ∈ signs by decide) (startsOutside_cons.mpr (by decide))
    have hsecond : cutLexeme ('>' :: ' ' :: rest) = some (.reserved, (['>'], ' ' :: rest)) :=
      cutLexeme_of_sign (show ">" ∈ signs by decide) (startsOutside_cons.mpr (by decide))
    have hsign : String.ofList ['>'] = ">" := by decide
    refine lexes_token hfirst rfl (lexes_token hsecond rfl (lexes_space (hrest.mono ?_)))
    intro ts hts line line'
    exact ⟨[_, _], ts, rfl, .shift (is_of_eq rfl hsign) (is_of_eq rfl hsign) rfl, hts⟩
  · refine lexes_token (cutLexeme_spaced halone hkind rest) hkind (lexes_space (hrest.mono ?_))
    intro ts hts line
    rw [String.ofList_toList]
    exact ⟨[_], ts, rfl, .word (t := ⟨kind, text, line, adjoins⟩) halone, hts⟩

theorem ReadsAll.passes {piece : Piece} (hpiece : piece.word? = none) {ts : List Token}
    (h : ReadsAll row ts) : ReadsAll (piece :: row) ts := by
  rcases h with ⟨front, t, hts, ht, hreads⟩
  cases piece with
  | gap => exact ⟨front, t, hts, ht, .gap hreads⟩
  | newline depth => exact ⟨front, t, hts, ht, .newline hreads⟩
  | token => cases hpiece
  | numeral => cases hpiece

theorem ReadsAll.spelled {piece : Piece} (hpiece : piece.word? = some text)
    {front more : List Token} (hfront : Spells text front) (h : ReadsAll row more) :
    ReadsAll (piece :: row) (front ++ more) := by
  rcases h with ⟨inner, t, rfl, ht, hreads⟩
  refine ⟨front ++ inner, t, (List.append_assoc ..).symm, ht, ?_⟩
  cases piece with
  | token => cases hpiece; exact .token hfront hreads
  | numeral => cases hpiece; exact .numeral hfront hreads
  | gap => cases hpiece
  | newline => cases hpiece

theorem lexes_spread (h : ∀ piece ∈ row, ∀ text ∈ piece.word?, IsWord text) (adjoins : Bool) :
    LexesAs adjoins (spread row) (ReadsAll row) := by
  induction row generalizing adjoins with
  | nil => exact lexes_nil fun line => ⟨[], _, rfl, rfl, .nil⟩
  | cons piece row ih =>
      have hrow := ih fun piece hpiece => h piece (List.mem_cons_of_mem _ hpiece)
      unfold spread at hrow ⊢
      cases hword : piece.word? with
      | none =>
          rw [List.filterMap_cons_none hword]
          exact (hrow adjoins).mono fun ts => ReadsAll.passes hword
      | some text =>
          rw [List.filterMap_cons_some hword, List.flatMap_cons, List.append_assoc]
          refine (lexes_word (h piece List.mem_cons_self text hword) (hrow false) adjoins).mono ?_
          rintro ts ⟨front, more, rfl, hfront, hmore⟩
          exact hmore.spelled hword hfront

theorem isTrivia_of_mem {lexemes : List Lexeme} {adjoins : Bool} {t : Token}
    (h : t ∈ tokensFrom adjoins lexemes) : t.kind.isTrivia = false := by
  induction lexemes generalizing adjoins with
  | nil => cases h
  | cons l rest ih =>
      rw [tokensFrom] at h
      split at h
      · exact ih h
      · rename_i hkind
        rcases List.mem_cons.mp h with rfl | h
        · simpa using hkind
        · exact ih h

theorem Spells.isWord {front : List Token} (h : Spells text front)
    (hfront : ∀ t ∈ front, t.kind.isTrivia = false) : IsWord text := by
  cases h with
  | word halone => exact Or.inr ⟨_, hfront _ List.mem_cons_self, halone⟩
  | shift => exact Or.inl rfl

theorem Reads.isWord {ts : List Token} (h : Reads row ts)
    (hts : ∀ t ∈ ts, t.kind.isTrivia = false) :
    ∀ piece ∈ row, ∀ text ∈ piece.word?, IsWord text := by
  induction h with
  | nil => simp
  | token h _ ih | numeral h _ ih =>
      refine List.forall_mem_cons.mpr ⟨?_, ih fun t ht => hts t (List.mem_append_right _ ht)⟩
      intro text htext
      cases htext
      exact h.isWord fun t ht => hts t (List.mem_append_left _ ht)
  | gap _ ih | newline _ ih => exact List.forall_mem_cons.mpr ⟨by simp [Piece.word?], ih hts⟩

theorem Holds.some {text : List Char} (h : Holds row text) {less : List Piece}
    (hless : ∀ piece ∈ less, piece ∈ row) : ∃ lesser, Holds less lesser := by
  rcases h with ⟨lexemes, _, front, t, hts, _, hreads⟩
  have hwords := hreads.isWord fun t ht =>
    isTrivia_of_mem (hts.symm ▸ List.mem_append_left _ ht)
  exact ⟨spread less, holds_of_lexes (lexes_spread
    (fun piece hpiece => hwords piece (List.mem_cons_of_mem _ (hless piece hpiece))) false)⟩

end Spread

end Lua
end LuaBundle
