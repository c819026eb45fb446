import LuaBundle.Proofs.Printing.Pages

/-!
# How printed text ends

The text of a body ends with its last token.  No name, number, string literal or reserved
word ends in a line feed, so the end of a page always breaks the line there.
-/

namespace LuaBundle
namespace Lua

open Text

theorem writeAll_append (page : Page) (front back : List Piece) :
    page.writeAll (front ++ back) = (page.writeAll front).writeAll back :=
  List.foldl_append

/-!
## The last character of a lexeme
-/

section Last

theorem after_last {cut : Option Cut} {letters front rest : List Char} {last : Char}
    (h : cut.map (Cut.after letters) = some (front, rest))
    (hinner : ∀ {inner after}, cut = some (inner, after) → inner.getLast? = some last) :
    front.getLast? = some last := by
  rcases Option.map_eq_some_iff.mp h with ⟨⟨inner, after⟩, hcut, heq⟩
  simp only [Cut.after, Prod.mk.injEq] at heq
  rw [← heq.1, List.getLast?_append, hinner hcut, Option.some_or]

theorem cutQuoted_last {quote : Char} {passes : Bool} {text front rest : List Char}
    (h : cutQuoted quote passes text = some (front, rest)) : front.getLast? = some quote := by
  fun_induction cutQuoted quote passes text generalizing front rest with
  | case1 => cases h
  | case2 => cases h
  | case3 passes c more ih => exact after_last h ih
  | case4 passes more hlone hpair => cases h; rfl
  | case5 c more hlone hpair hquote hbreak ih => exact after_last h ih
  | case6 => cases h
  | case7 passes c more hlone hpair hquote hbreak ih => exact after_last h ih

theorem cutThrough_last {closing text front rest : List Char} {last : Char}
    (hclosing : closing.getLast? = some last) (h : cutThrough closing text = some (front, rest)) :
    front.getLast? = some last := by
  induction text generalizing front rest with
  | nil =>
      cases closing with
      | nil => cases hclosing
      | cons c closing => cases h
  | cons c more ih =>
      unfold cutThrough at h
      split at h
      · cases h
        exact hclosing
      · exact after_last h ih

theorem longBracket_last {text front rest : List Char}
    (h : longBracket text = .closed (front, rest)) : front.getLast? = some ']' := by
  rcases longBracket_closed h with ⟨level, contents, inside, _, hcut, rfl⟩
  have hclosing : (closingBracket level).getLast? = some ']' := List.getLast?_concat
  have hlast := cutThrough_last hclosing hcut
  rw [List.getLast?_cons, List.getLast?_append, List.getLast?_cons, hlast]
  rfl

/-- A class of characters without the line feed keeps it out of what is cut off. -/
theorem cutWhile_visible {inside : Char → Bool} (h : inside '\n' = false) (text : List Char) :
    '\n' ∉ (cutWhile inside text).1 := by
  intro hmem
  rcases hcut : cutWhile inside text with ⟨front, rest⟩
  rw [hcut] at hmem
  have hinside := (all_of_cutWhile hcut).1 _ hmem
  rw [h] at hinside
  cases hinside

theorem cutNumberTail_visible (mark digit : Char → Bool) (hmark : mark '\n' = false)
    (hdigit : digit '\n' = false) (text : List Char) :
    '\n' ∉ (cutNumberTail mark digit text).1 := by
  have hfraction : ∀ text, '\n' ∉ (cutFraction digit text).1 := by
    intro text
    unfold cutFraction
    split
    · simpa [Cut.after] using cutWhile_visible hdigit _
    · simp
  have hexponent : ∀ text, '\n' ∉ (cutExponent mark digit text).1 := by
    intro text
    cases text with
    | nil => simp [cutExponent]
    | cons c rest =>
        have hsign : '\n' ∉ (cutSign rest).1 := by
          unfold cutSign
          split <;> simp
        have hdigits := cutWhile_visible hdigit (cutSign rest).2
        simp only [cutExponent]
        split
        · rename_i hc
          have hne : '\n' ≠ c := by
            rintro rfl
            simp [hmark] at hc
          simp [hne, hsign, hdigits]
        · simp
  have hsuffix : ∀ text, '\n' ∉ (cutSuffix text).1 := by
    intro text
    unfold cutSuffix
    split <;> simp
  simp only [cutNumberTail, List.mem_append, not_or]
  exact ⟨⟨hfraction _, hexponent _⟩, hsuffix _⟩

theorem cutDecimal_visible (text : List Char) : '\n' ∉ (cutDecimal text).1 := by
  have hwhole : '\n' ∉ (cutWhile isDigitPart text).1 := cutWhile_visible (by decide) text
  have hmore := cutNumberTail_visible (fun c => c == 'e' || c == 'E') isDigitPart
    (by decide) (by decide) (cutWhile isDigitPart text).2
  simp only [cutDecimal, Cut.after, List.mem_append, not_or]
  exact ⟨hwhole, hmore⟩

theorem cutHexadecimal_visible {x : Char} {text : List Char} {cut : Cut}
    (hx : x = 'x' ∨ x = 'X') (h : cutHexadecimal x text = some cut) : '\n' ∉ cut.1 := by
  have hmark : '\n' ≠ x := by rcases hx with rfl | rfl <;> decide
  have hwhole : '\n' ∉ (cutWhile isHexPart text).1 := cutWhile_visible (by decide) text
  have hmore := cutNumberTail_visible (fun c => c == 'p' || c == 'P') isHexPart
    (by decide) (by decide) (cutWhile isHexPart text).2
  simp only [cutHexadecimal] at h
  split at h
  · cases h
  · cases h
    simp [Cut.after, hmark, hwhole, hmore]

theorem cutNumber_visible {text front rest : List Char}
    (h : cutNumber text = some (front, rest)) : '\n' ∉ front := by
  generalize hcut : (front, rest) = cut at h
  have hfront : front = cut.1 := congrArg Prod.fst hcut
  rw [hfront]
  cases numberCut_of_cutNumber h with
  | decimal _ _ => exact cutDecimal_visible _
  | point _ => exact cutDecimal_visible _
  | zero _ _ => exact show '\n' ∉ ['0'] by decide
  | hexadecimal hx hinner => exact cutHexadecimal_visible hx hinner

theorem Alone.last {kind : Lexeme.Kind} {text : String} (h : Alone kind text)
    (hkind : kind ∈ [.name, .number, .string]) : text.toList.getLast? ≠ some '\n' := by
  unfold Alone at h
  generalize hcut : (text.toList, ([] : List Char)) = cut at h
  have hfront : text.toList = cut.1 := by rw [← hcut]
  rw [hfront]
  cases firstLexeme_of_cutLexeme h with
  | blank _ => simp at hkind
  | comment _ hcomment =>
      rcases cutComment_kind hcomment with rfl | rfl <;> simp at hkind
  | quoted hquote _ hquoted =>
      rename_i quote _ inner _
      rcases inner with ⟨inner, after⟩
      simp only [Cut.after, List.getLast?_append, cutQuoted_last hquoted, Option.some_or]
      rcases hquote with rfl | rfl <;> decide
  | bracketed _ hlong =>
      rcases cut with ⟨inner, after⟩
      rw [longBracket_last hlong]
      decide
  | word _ _ =>
      exact fun hlast => cutWhile_visible (by decide) _ (List.mem_of_getLast? hlast)
  | number hnumber =>
      rcases cut with ⟨inner, after⟩
      exact fun hlast => cutNumber_visible hnumber (List.mem_of_getLast? hlast)
  | bracket _ => simp at hkind
  | sign _ => simp at hkind

end Last

/-!
## The last character of a statement
-/

def EndsVisibly (pieces : List Piece) : Prop :=
  ∃ front text, (pieces = front ++ [.token text] ∨ pieces = front ++ [.numeral text]) ∧
    text.toList ≠ [] ∧ text.toList.getLast? ≠ some '\n'

section Visible

variable {encoding : Encoding}

theorem EndsVisibly.after {pieces : List Piece} (h : EndsVisibly pieces) (front : List Piece) :
    EndsVisibly (front ++ pieces) := by
  rcases h with ⟨inner, text, hpieces, htext⟩
  refine ⟨front ++ inner, text, ?_, htext⟩
  rcases hpieces with rfl | rfl
  · exact Or.inl (List.append_assoc ..).symm
  · exact Or.inr (List.append_assoc ..).symm

theorem EndsVisibly.cons {pieces : List Piece} (h : EndsVisibly pieces) (piece : Piece) :
    EndsVisibly (piece :: pieces) :=
  h.after [piece]

theorem Spelled.endsVisibly {kind : Lexeme.Kind} {text : String} (h : Spelled encoding kind text)
    (hkind : kind ∈ [.name, .number, .string]) :
    EndsVisibly [.token text] ∧ EndsVisibly [.numeral text] := by
  have hlast := h.alone.last hkind
  exact ⟨⟨[], text, Or.inl rfl, h.alone.ne_nil, hlast⟩, [], text, Or.inr rfl, h.alone.ne_nil, hlast⟩

def closingWords : List String :=
  ["true", "false", "nil", "...", "(", ")", "]", "\x7d", "::", ">", "end", "until", "break",
    "return"]

theorem endsVisibly_closing (front : List Piece) {word : String} (h : word ∈ closingWords) :
    EndsVisibly (front ++ [.token word]) := by
  have hwords : ∀ word ∈ closingWords,
      word.toList ≠ [] ∧ word.toList.getLast? ≠ some '\n' := by decide
  exact ⟨front, word, Or.inl rfl, hwords word h⟩

theorem endsVisibly_enclosed (parens : Bool) {pieces : List Piece} (h : EndsVisibly pieces) :
    EndsVisibly (enclosed parens pieces) := by
  cases parens with
  | false => exact h
  | true => exact endsVisibly_closing (.token "(" :: pieces) (by decide)

theorem endsVisibly_separated {rows : List (List Piece)} (hne : rows ≠ [])
    (h : ∀ row ∈ rows, EndsVisibly row) : EndsVisibly (commaSeparated rows) := by
  induction rows with
  | nil => exact absurd rfl hne
  | cons row rest ih =>
      rw [commaSeparated_cons]
      cases rest with
      | nil => simpa using h row (by simp)
      | cons next more =>
          have hrest := ih (by simp) fun row hrow => h row (List.mem_cons_of_mem _ hrow)
          rw [commaSeparated_cons] at hrest
          simpa using (hrest.after commaPieces).after row

theorem endsVisibly_table (style : Style) (depth : Nat) (rows : List (List Piece)) :
    EndsVisibly (tablePieces style depth rows) := by
  unfold tablePieces
  split
  · exact endsVisibly_closing [_] (by decide)
  · exact (endsVisibly_closing [_] (by decide)).after _
  · exact endsVisibly_closing _ (by decide)

theorem endsVisibly_body (depth : Nat) {closing : String} (h : closing ∈ closingWords)
    (body : List Stat) (pieces : List Piece) :
    EndsVisibly (closedBody depth closing body pieces) := by
  cases body with
  | nil => exact endsVisibly_closing [.gap] h
  | cons s rest => exact (endsVisibly_closing [_] h).after pieces

theorem Args.endsVisibly (style : Style) (depth : Nat) {arguments : Args}
    (h : arguments.WellFormed encoding) : EndsVisibly (arguments.pieces style depth) := by
  cases arguments with
  | list es => rw [Args.pieces]; exact endsVisibly_closing _ (by decide)
  | table fields => rw [Args.pieces]; exact endsVisibly_table ..
  | string literal =>
      rw [Args.pieces]
      exact (Spelled.endsVisibly h (by decide)).1

/-- The last token of an expression, by induction along the operands on the right. -/
theorem Expr.endsVisibly (style : Style) (depth : Nat) {callee : Bool} : (e : Expr) →
    e.WellFormed encoding callee → EndsVisibly (e.pieces style depth)
  | .name n, h => by
      rw [Expr.pieces]
      exact (Spelled.endsVisibly h (by decide)).1
  | .string literal, h => by
      rw [Expr.pieces]
      exact (Spelled.endsVisibly h (by decide)).1
  | .number numeral line, h => by
      rw [Expr.pieces]
      cases numeral with
      | written raw => exact (Spelled.endsVisibly h (by decide)).2
      | value x => exact absurd h id
  | .nil, _ => by
      rw [Expr.pieces]
      exact endsVisibly_closing [] (by decide)
  | .boolean value, _ => by
      rw [Expr.pieces]
      cases value <;> exact endsVisibly_closing [] (by decide)
  | .vararg inParens line, _ => by
      rw [Expr.pieces]
      exact endsVisibly_closing [] (by decide)
  | .function parameters body, _ => by
      rw [Expr.pieces]
      exact ((endsVisibly_body depth (by decide) body _).cons _).after _
  | .table fields, _ => by
      rw [Expr.pieces]
      exact endsVisibly_table ..
  | .binary op left right, h => by
      rw [Expr.pieces]
      exact (endsVisibly_enclosed _ (Expr.endsVisibly style depth right h.2)).after _
  | .unary op operand, h => by
      rw [Expr.pieces]
      exact (endsVisibly_enclosed _ (Expr.endsVisibly style depth operand h)).after _
  | .member base indexer n, h => by
      rw [Expr.pieces]
      exact ((Spelled.endsVisibly h.2.2.2 (by decide)).1.cons _).after _
  | .index base key, _ => by
      rw [Expr.pieces]
      exact endsVisibly_closing _ (by decide)
  | .call base arguments inParens line, h => by
      rw [Expr.pieces]
      exact (Args.endsVisibly style depth h.2.2).after _

theorem endsVisibly_exprs (style : Style) (depth : Nat) {es : List Expr} (hne : es ≠ [])
    (h : exprsWellFormed encoding es) :
    EndsVisibly (commaSeparated (exprRows style depth es)) := by
  rw [exprRows_eq_map]
  refine endsVisibly_separated (by simpa using hne) ?_
  intro row hrow
  rcases List.mem_map.mp hrow with ⟨e, he, rfl⟩
  exact endsVisibly_enclosed _ (e.endsVisibly style depth (exprsWellFormed_iff.mp h e he))

theorem endsVisibly_vars {vars : List LocalVar} (hne : vars ≠ [])
    (h : ∀ v ∈ vars, v.WellFormed encoding) :
    EndsVisibly (commaSeparated (vars.map LocalVar.pieces)) := by
  refine endsVisibly_separated (by simpa using hne) ?_
  intro row hrow
  rcases List.mem_map.mp hrow with ⟨v, hv, rfl⟩
  unfold LocalVar.pieces
  split
  · exact (Spelled.endsVisibly (h v hv).1 (by decide)).1
  · exact endsVisibly_closing [_, _, _, _] (by decide)

theorem Stat.endsVisibly (style : Style) (depth : Nat) {s : Stat} (h : s.WellFormed encoding) :
    EndsVisibly (s.pieces style depth) := by
  cases s with
  | label n => exact endsVisibly_closing [_, _] (by decide)
  | goto n => exact ((Spelled.endsVisibly h (by decide)).1.cons _).cons _
  | leave => exact endsVisibly_closing [] (by decide)
  | ret values =>
      cases values with
      | nil => exact endsVisibly_closing [] (by decide)
      | cons e rest =>
          rw [Stat.pieces]
          exact ((endsVisibly_exprs style depth (by simp) h).cons _).cons _
  | choice clauses =>
      rw [Stat.pieces]
      exact (endsVisibly_closing [_] (by decide)).after _
  | whileLoop condition body =>
      rw [Stat.pieces]
      exact (((endsVisibly_body depth (by decide) body _).cons _).cons _).after _
  | block body =>
      rw [Stat.pieces]
      exact (endsVisibly_body depth (by decide) body _).cons _
  | repeatLoop body condition =>
      rw [Stat.pieces]
      exact ((endsVisibly_enclosed _ (condition.endsVisibly style depth h.2)).cons _).after _
  | locals vars values =>
      rw [Stat.pieces]
      cases values with
      | nil => simpa using ((endsVisibly_vars h.1 h.2.1).cons _).cons _
      | cons e rest => exact ((endsVisibly_exprs style depth (by simp) h.2.2).after _).after _
  | assign targets values =>
      rw [Stat.pieces]
      exact (endsVisibly_exprs style depth h.2.1 h.2.2.2.2).after _
  | call e =>
      rw [Stat.pieces]
      exact endsVisibly_enclosed _ (e.endsVisibly style depth h.2.2)
  | function isLocal name parameters body =>
      rw [Stat.pieces]
      exact ((endsVisibly_body depth (by decide) body _).cons _).after _
  | forRange counter first last step body =>
      rw [Stat.pieces]
      exact (((endsVisibly_body depth (by decide) body _).cons _).cons _).after _
  | forEach vars iterators body =>
      rw [Stat.pieces]
      exact (((endsVisibly_body depth (by decide) body _).cons _).cons _).after _

theorem endsVisibly_block (style : Style) (depth : Nat) (follows : Bool) {body : List Stat}
    (hne : body ≠ []) (h : blockWellFormed encoding body) :
    EndsVisibly (blockPieces style depth follows body) := by
  induction body generalizing follows with
  | nil => exact absurd rfl hne
  | cons s rest ih =>
      rw [blockPieces]
      cases rest with
      | nil =>
          rw [blockPieces, List.append_nil]
          exact (s.endsVisibly style depth h.1).after _
      | cons next more => exact (ih true (by simp) h.2.2).after _

theorem endLine_of_endsVisibly {pieces : List Piece} (h : EndsVisibly pieces) (page : Page) :
    (page.writeAll pieces).endLine.text = (page.writeAll pieces).text ++ ['\n'] := by
  rcases h with ⟨front, text, hpieces, hne, hlast⟩
  have htoken : ∀ page : Page, (page.token text).written.head? = text.toList.getLast? := by
    intro page
    rcases List.exists_cons_of_ne_nil hne with ⟨c, rest, htext⟩
    simp [Page.token, htext, List.head?_append, List.getLast?_cons]
  have hhead : (page.writeAll pieces).written.head? ≠ some '\n' := by
    rcases hpieces with rfl | rfl <;> rw [writeAll_append]
    · exact (htoken (page.writeAll front)).symm ▸ hlast
    · exact (htoken (page.writeAll front)).symm ▸ hlast
  unfold Page.endLine
  split
  · rename_i hwritten
    simp [hwritten] at hhead
  · simp [Page.text]

end Visible

end Lua
end LuaBundle
