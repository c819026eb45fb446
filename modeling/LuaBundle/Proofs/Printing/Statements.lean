import LuaBundle.Proofs.Printing.Endings
import LuaBundle.Proofs.Printing.Readable

/-!
# Statement by statement

A page takes the statements of a chunk one by one, or the whole chunk at once.  What comes
next depends only on the last character of a page, so both ways write the same, but for one
thing: only a whole chunk has a semicolon in front of a later statement that starts with a
parenthesis.
-/

namespace LuaBundle
namespace Lua

open Text

/-!
## Pages that go on alike
-/

def Page.statements (page : Page) (body : List Stat) : Page :=
  body.foldl Page.statement page

/-- A page on which the same comes next as on another one, and which has more characters. -/
structure Page.Exceeds (longer : Page) (extra : Nat) (page : Page) : Prop where
  style : longer.style = page.style
  afterNumeral : longer.afterNumeral = page.afterNumeral
  last : longer.written.head? = page.written.head?
  length : longer.written.length = page.written.length + extra

theorem exceeds_refl (page : Page) : page.Exceeds 0 page :=
  ⟨rfl, rfl, rfl, rfl⟩

section Exceeds

variable {longer page : Page} {extra : Nat}

theorem Page.Exceeds.needsSpace (h : longer.Exceeds extra page) (next : Char) :
    longer.needsSpace next = page.needsSpace next := by
  have hlast := h.last
  unfold Page.needsSpace
  cases hlonger : longer.written with
  | nil =>
      rw [hlonger] at hlast
      rw [List.head?_eq_none_iff.mp hlast.symm]
  | cons c written =>
      rw [hlonger] at hlast
      rcases List.head?_eq_some_iff.mp hlast.symm with ⟨others, hpage⟩
      rw [hpage, h.afterNumeral]

theorem Page.Exceeds.token (h : longer.Exceeds extra page) (text : String) :
    (longer.token text).Exceeds extra (page.token text) := by
  unfold Page.token
  cases htext : text.toList with
  | nil => exact h
  | cons c rest =>
      have hlength := h.length
      simp only [h.needsSpace c]
      constructor
      case style => exact h.style
      case afterNumeral => rfl
      case last => cases hrest : (c :: rest).reverse <;> simp_all
      case length => split <;> simp <;> omega

theorem Page.Exceeds.write (h : longer.Exceeds extra page) (piece : Piece) :
    (longer.write piece).Exceeds extra (page.write piece) := by
  cases piece with
  | token text => exact h.token text
  | numeral text =>
      have htoken := h.token text
      exact ⟨htoken.style, rfl, htoken.last, htoken.length⟩
  | gap =>
      have hlength := h.length
      unfold Page.write
      rw [h.style]
      cases page.style with
      | pretty => exact ⟨rfl, rfl, rfl, by simp only [List.length_cons]; omega⟩
      | compact => exact h
  | newline depth =>
      have hlength := h.length
      have hlast := h.last
      unfold Page.write
      rw [h.style]
      cases hpage : page.written with
      | nil =>
          rw [hpage] at hlast
          rw [List.head?_eq_none_iff.mp hlast]
          cases page.style <;> exact h
      | cons c written =>
          rw [hpage] at hlast hlength
          rcases List.head?_eq_some_iff.mp hlast with ⟨others, hlonger⟩
          rw [hlonger] at hlength ⊢
          cases page.style with
          | pretty =>
              constructor
              case style => rfl
              case afterNumeral => rfl
              case last => cases depth <;> rfl
              case length => simp only [List.length_append, List.length_cons] at hlength ⊢; omega
          | compact => exact h

theorem Page.Exceeds.writeAll (h : longer.Exceeds extra page) (pieces : List Piece) :
    (longer.writeAll pieces).Exceeds extra (page.writeAll pieces) := by
  induction pieces generalizing longer page with
  | nil => exact h
  | cons piece pieces ih => exact ih (h.write piece)

end Exceeds

/-!
## The boundary between two statements
-/

section Boundary

variable {longer page : Page} {extra : Nat} {encoding : Encoding}

/-- No token keeps away from a semicolon or a parenthesis that comes next. -/
theorem needsSpace_boundary (page : Page) :
    page.needsSpace ';' = false ∧ page.needsSpace '(' = false := by
  have hmerge : ∀ last : Char, mergeable last ';' = false ∧ mergeable last '(' = false := by
    intro last
    simp [mergeable, isWordChar]
  unfold Page.needsSpace
  split
  · exact ⟨rfl, rfl⟩
  · rename_i last written _
    rw [(hmerge last).1, (hmerge last).2]
    simp [isWordChar]

/-- A semicolon in front of a parenthesis is one character more and leaves no other trace. -/
theorem Page.Exceeds.semicolon (h : longer.Exceeds extra page) :
    ((longer.token ";").token "(").Exceeds (extra + 1) (page.token "(") := by
  have hlength := h.length
  have hsemicolon : longer.token ";" =
      { longer with written := ';' :: longer.written, afterNumeral := false } := by
    simp [Page.token, (needsSpace_boundary longer).1]
  have hparen : ∀ page : Page, page.token "(" =
      { page with written := '(' :: page.written, afterNumeral := false } := by
    intro page
    simp [Page.token, (needsSpace_boundary page).2]
  rw [hsemicolon, hparen, hparen]
  exact ⟨h.style, rfl, rfl, by simp only [List.length_cons]; omega⟩

def separatePieces (style : Style) (body : List Stat) : List Piece :=
  body.flatMap fun s => .newline 0 :: s.pieces style 0

theorem writeAll_style (page : Page) (pieces : List Piece) :
    (page.writeAll pieces).style = page.style := by
  induction pieces generalizing page with
  | nil => rfl
  | cons piece pieces ih =>
      have hwrite : (page.write piece).style = page.style := by
        cases piece with
        | token text => exact token_style page text
        | numeral text => exact token_style page text
        | gap => cases hstyle : page.style <;> simp [Page.write, hstyle]
        | newline depth =>
            cases hstyle : page.style <;> cases hwritten : page.written <;>
              simp [Page.write, hstyle, hwritten]
      exact (ih (page.write piece)).trans hwrite

theorem statements_eq (page : Page) (body : List Stat) :
    page.statements body = page.writeAll (separatePieces page.style body) := by
  induction body generalizing page with
  | nil => rfl
  | cons s rest ih =>
      have hmore := ih (page.statement s)
      rw [Page.statement, writeAll_style] at hmore
      rw [separatePieces, List.flatMap_cons, writeAll_append]
      exact hmore

/-- A statement with the semicolon that its place in a chunk asks for, and without. -/
theorem Page.Exceeds.statement {s : Stat} (hs : s.WellFormed encoding)
    (h : longer.Exceeds extra page) (style : Style) :
    (longer.writeAll (.newline 0 :: (if true && s.startsWithParen then [.token ";"] else [])
        ++ s.pieces style 0)).Exceeds (extra + if s.startsWithParen then 1 else 0)
      (page.writeAll (.newline 0 :: s.pieces style 0)) := by
  have hline := h.write (.newline 0)
  cases hparen : s.startsWithParen with
  | false => exact h.writeAll _
  | true =>
      rcases heads_statement style 0 hs with ⟨word, more, hpieces, hword⟩
      rw [Stat.Heads, if_pos hparen] at hword
      rw [hpieces, hword]
      exact hline.semicolon.writeAll more

/-- The statements behind the first one: a chunk has a semicolon more for each that starts
with a parenthesis. -/
theorem Page.Exceeds.following {body : List Stat} (hbody : blockWellFormed encoding body)
    (h : longer.Exceeds extra page) (style : Style) :
    (longer.writeAll (blockPieces style 0 true body)).Exceeds
      (extra + body.countP Stat.startsWithParen)
      (page.writeAll (separatePieces style body)) := by
  induction body generalizing longer page extra with
  | nil =>
      rw [blockPieces]
      exact h
  | cons s rest ih =>
      have hmore := ih hbody.2.2 (h.statement hbody.1 style)
      rw [← writeAll_append, ← writeAll_append] at hmore
      rw [blockPieces, List.countP_cons, Nat.add_comm (rest.countP _), ← Nat.add_assoc]
      exact hmore

end Boundary

/-!
## Whole chunks
-/

theorem blockPieces_eq_separate (style : Style) {body : List Stat}
    (h : ∀ s ∈ body, s.startsWithParen = false) :
    blockPieces style 0 true body = separatePieces style body := by
  induction body with
  | nil => rfl
  | cons s rest ih =>
      have hrest := ih fun s hs => h s (List.mem_cons_of_mem _ hs)
      have hs := h s (by simp)
      rw [blockPieces, hrest, hs]
      rfl

/-- Statements printed one by one leave the text of their chunk but for its last line break
exactly if none but the first starts with a parenthesis. -/
theorem statements_print_iff {encoding : Encoding} {source : List Char} {c : Chunk}
    (hsource : source.all (admits encoding) = true) (h : parse encoding source = .ok c)
    (style : Style) :
    ((Page.blank style).statements c.body).text ++ ['\n'] = print style c.body ↔
      ∀ s ∈ c.body.tail, s.startsWithParen = false := by
  have hbody := (readable_of_parse hsource h).wellFormed
  have hprint : print style c.body =
      ((Page.blank style).writeAll (blockPieces style 0 false c.body)).endLine.text := rfl
  rw [statements_eq, hprint]
  cases hcases : c.body with
  | nil =>
      constructor
      case mp => intro _; simp
      case mpr => intro _; rfl
  | cons s rest =>
      rw [hcases] at hbody
      rw [endLine_of_endsVisibly (endsVisibly_block style 0 false (by simp) hbody)]
      -- Both ways print the first statement alike.
      have hfirst : blockPieces style 0 false (s :: rest) =
          (.newline 0 :: s.pieces style 0) ++ blockPieces style 0 true rest := rfl
      have hseparate : separatePieces (Page.blank style).style (s :: rest) =
          (.newline 0 :: s.pieces style 0) ++ separatePieces style rest := rfl
      rw [hfirst, hseparate, writeAll_append, writeAll_append]
      constructor
      case mp =>
        intro htext
        have hlength := congrArg List.length htext
        have hexceeds := (exceeds_refl ((Page.blank style).writeAll
          (.newline 0 :: s.pieces style 0))).following hbody.2.2 style
        simp only [Page.text, List.length_append, List.length_reverse, hexceeds.length] at hlength
        have hcount : rest.countP Stat.startsWithParen = 0 := by omega
        simpa using List.countP_eq_zero.mp hcount
      case mpr =>
        intro hrest
        rw [List.tail_cons] at hrest
        rw [blockPieces_eq_separate style hrest]

def bracketedCall : List Char :=
  "a = b; (f or g)()".toList

theorem bracketedCall_statements :
    ∃ c, bracketedCall.all (admits .utf8) = true ∧ parse .utf8 bracketedCall = .ok c ∧
      (((Page.blank .pretty).statements c.body).text ++ ['\n'] = print .pretty c.body ↔
        ∀ s ∈ c.body.tail, s.startsWithParen = false) := by
  have hsource : bracketedCall.all (admits .utf8) = true := by decide
  have hparse : ((parse .utf8 bracketedCall).toOption.any fun _ => true) = true := by
    decide +kernel
  rcases exists_ok_of_any hparse with ⟨c, hc, _⟩
  exact ⟨c, hsource, hc, statements_print_iff hsource hc .pretty⟩

/-- Without the semicolon the call is read as a part of the assignment. -/
theorem bracketedCall_differs :
    ∃ c joined, parse .utf8 bracketedCall = .ok c ∧ c.body.length = 2 ∧
      print .pretty c.body = "a = b\n;(f or g)()\n".toList ∧
      ((Page.blank .pretty).statements c.body).text = "a = b\n(f or g)()".toList ∧
      parse .utf8 "a = b\n(f or g)()".toList = .ok joined ∧ joined.body.length = 1 := by
  have hwhole : ((parse .utf8 bracketedCall).toOption.any fun c =>
      c.body.length == 2 && print .pretty c.body == "a = b\n;(f or g)()\n".toList &&
        ((Page.blank .pretty).statements c.body).text == "a = b\n(f or g)()".toList) = true := by
    decide +kernel
  have hjoined : ((parse .utf8 "a = b\n(f or g)()".toList).toOption.any fun c =>
      c.body.length == 1) = true := by
    decide +kernel
  rcases exists_ok_of_any hwhole with ⟨c, hc, htexts⟩
  rcases exists_ok_of_any hjoined with ⟨joined, hread, hlength⟩
  simp only [Bool.and_eq_true, beq_iff_eq] at htexts hlength
  exact ⟨c, joined, hc, htexts.1.1, htexts.1.2, htexts.2, hread, hlength⟩

end Lua
end LuaBundle
