import LuaBundle.Proofs.Grammar.Blocks
import LuaBundle.Proofs.Printing.Flow

/-!
# Reading pages

The text of a page is cut into the tokens of its pieces again.  What a page writes behind a
token cannot continue it: the trail leaves out what the page does not keep apart by itself.
-/

namespace LuaBundle
namespace Lua

open Text

/-!
## The text of pieces
-/

def Page.added (page : Page) : Piece → List Char
  | .token text | .numeral text =>
      match text.toList with
      | [] => []
      | c :: rest => (if page.needsSpace c then [' '] else []) ++ c :: rest
  | .gap =>
      match page.style with
      | .pretty => [' ']
      | .compact => []
  | .newline depth =>
      match page.style, page.written with
      | .pretty, _ :: _ => '\n' :: List.replicate (4 * depth) ' '
      | _, _ => []

def Page.following (page : Page) : List Piece → List Char
  | [] => []
  | piece :: pieces => page.added piece ++ (page.write piece).following pieces

theorem token_text (page : Page) (text : String) :
    (page.token text).text = page.text ++ page.added (.token text) := by
  cases htext : text.toList with
  | nil => simp [Page.token, Page.added, htext]
  | cons c rest =>
      simp only [Page.token, Page.added, Page.text, htext]
      split <;> simp

theorem write_text (page : Page) (piece : Piece) :
    (page.write piece).text = page.text ++ page.added piece := by
  cases piece with
  | token text => exact token_text page text
  | numeral text => exact token_text page text
  | gap => cases hstyle : page.style <;> simp [Page.write, Page.added, Page.text, hstyle]
  | newline depth =>
      cases hstyle : page.style <;> cases hwritten : page.written <;>
        simp [Page.write, Page.added, Page.text, hstyle, hwritten]

theorem writeAll_text (page : Page) (pieces : List Piece) :
    (page.writeAll pieces).text = page.text ++ page.following pieces := by
  induction pieces generalizing page with
  | nil => simp [Page.writeAll, Page.following]
  | cons piece pieces ih =>
      have hmore := ih (page.write piece)
      rw [write_text, List.append_assoc] at hmore
      exact hmore

theorem endLine_text (page : Page) :
    ∃ ending, page.endLine.text = page.text ++ ending ∧ (ending = [] ∨ ending = ['\n']) := by
  unfold Page.endLine
  split
  · exact ⟨[], by simp, Or.inl rfl⟩
  · exact ⟨['\n'], by simp [Page.text], Or.inr rfl⟩

/-!
## Lexemes of a text
-/

/-- Whether a text is cut into lexemes whose tokens are as they should be. -/
def LexesAs (adjoins : Bool) (text : List Char) (good : List Token → Prop) : Prop :=
  ∀ fuel line, text.length ≤ fuel →
    ∃ lexemes, lexFrom fuel line text = .ok lexemes ∧ good (tokensFrom adjoins lexemes)

section Lexes

variable {adjoins : Bool} {text front rest : List Char} {good : List Token → Prop}

theorem lexFrom_cut {kind : Lexeme.Kind} {fuel line : Nat} {c : Char}
    (h : cutLexeme (c :: text) = some (kind, (front, rest))) :
    lexFrom (fuel + 1) line (c :: text) = (do
      let others ← lexFrom fuel (line + lineFeeds front) rest
      return ⟨kind, String.ofList front, line⟩ :: others) := by
  rw [lexFrom, h]

theorem lexes_nil (h : ∀ line, good [⟨.finish, "", line, adjoins⟩]) : LexesAs adjoins [] good :=
  fun fuel line _ => ⟨[⟨.finish, "", line⟩], by cases fuel <;> rfl, h line⟩

theorem lexes_cut {kind : Lexeme.Kind} (hcut : cutLexeme text = some (kind, (front, rest)))
    (hrest : ∀ fuel line, rest.length ≤ fuel → ∃ lexemes, lexFrom fuel line rest = .ok lexemes ∧
      ∀ line, good (tokensFrom adjoins (⟨kind, String.ofList front, line⟩ :: lexemes))) :
    LexesAs adjoins text good := by
  intro fuel line hfuel
  have hsplit := cutLexeme_append hcut
  have hfront := cutLexeme_ne_nil hcut
  have hlength : front.length ≠ 0 := by simpa using hfront
  subst hsplit
  cases front with
  | nil => exact absurd rfl hfront
  | cons c front =>
      simp only [List.cons_append, List.length_cons, List.length_append] at hfuel
      cases fuel with
      | zero => omega
      | succ fuel =>
          rcases hrest fuel (line + lineFeeds (c :: front)) (by omega) with ⟨lexemes, hlex, hgood⟩
          refine ⟨_, ?_, hgood line⟩
          rw [List.cons_append] at hcut ⊢
          rw [lexFrom_cut hcut, hlex]
          rfl

theorem lexes_token {kind : Lexeme.Kind} (hcut : cutLexeme text = some (kind, (front, rest)))
    (hkind : kind.isTrivia = false)
    (hrest : LexesAs true rest fun ts =>
      ∀ line, good (⟨kind, String.ofList front, line, adjoins⟩ :: ts)) :
    LexesAs adjoins text good := by
  refine lexes_cut hcut fun fuel line hfuel => ?_
  rcases hrest fuel line hfuel with ⟨lexemes, hlex, hgood⟩
  refine ⟨lexemes, hlex, fun line => ?_⟩
  rw [tokensFrom, if_neg (by simp [hkind])]
  exact hgood line

theorem lexes_blank (hcut : cutLexeme text = some (.blank, (front, rest)))
    (hrest : LexesAs false rest good) : LexesAs adjoins text good := by
  refine lexes_cut hcut fun fuel line hfuel => ?_
  rcases hrest fuel line hfuel with ⟨lexemes, hlex, hgood⟩
  exact ⟨lexemes, hlex, fun line => hgood⟩

theorem cutBlank_space (rest : List Char) :
    cutBlank (' ' :: rest) = (cutBlank rest).after [' '] := by
  simp [cutBlank, cutWhile, isPad, Cut.after]

theorem cutLexeme_of_blank {c : Char} (h : cutBlank text = (c :: front, rest)) :
    cutLexeme text = some (.blank, (c :: front, rest)) := by
  unfold cutLexeme
  rw [h]

theorem lexes_space (h : LexesAs false text good) : LexesAs adjoins (' ' :: text) good := by
  have hspace := cutBlank_space text
  have hsplit := cutBlank_append text
  rcases hblank : cutBlank text with ⟨blank, after⟩
  rw [hblank] at hspace hsplit
  subst hsplit
  have hcut := cutLexeme_of_blank hspace
  cases blank with
  | nil => exact lexes_blank hcut h
  | cons c blank =>
      -- The space and the blank behind it are one lexeme.
      intro fuel line hfuel
      cases fuel with
      | zero => simp at hfuel
      | succ fuel =>
          rcases h (fuel + 1) line (Nat.le_trans (Nat.le_succ _) hfuel) with ⟨lexemes, hlex, hgood⟩
          have hinner : cutLexeme (c :: (blank ++ after)) = some (.blank, (c :: blank, after)) :=
            cutLexeme_of_blank hblank
          rw [List.cons_append, lexFrom_cut hinner] at hlex
          have hlines : lineFeeds (' ' :: c :: blank) = lineFeeds (c :: blank) := by
            simp [lineFeeds]
          cases hothers : lexFrom fuel (line + lineFeeds (c :: blank)) after with
          | error e => rw [hothers] at hlex; cases hlex
          | ok others =>
              rw [hothers] at hlex
              cases hlex
              refine ⟨⟨.blank, String.ofList (' ' :: c :: blank), line⟩ :: others, ?_, hgood⟩
              rw [lexFrom_cut hcut]
              change (do
                let others ← lexFrom fuel (line + lineFeeds (' ' :: c :: blank)) after
                return _ :: others : Except Nat (List Lexeme)) = _
              rw [hlines, hothers]
              rfl

theorem cutLexeme_feed (text : List Char) :
    cutLexeme ('\n' :: text) = some (.blank, (['\n'], text)) := by
  apply cutLexeme_of_blank
  simp [cutBlank, cutWhile, isPad, cutLineBreak, Cut.after]

theorem lexes_feed (h : LexesAs false text good) : LexesAs adjoins ('\n' :: text) good :=
  lexes_blank (cutLexeme_feed text) h

theorem lexes_spaces (count : Nat) (h : LexesAs false text good) :
    LexesAs false (List.replicate count ' ' ++ text) good := by
  induction count with
  | zero => exact h
  | succ count ih => exact lexes_space ih

end Lexes

/-!
## Trails and pages
-/

/-- A page that keeps the last token apart from what its trail accepts.  The characters that
the token would take in are given. -/
structure Trail.Describes (style : Style) (trail : Trail) (joins : Char → Bool) (page : Page) :
    Prop where
  style_eq : page.style = style
  space : joins ' ' = false
  feed : joins '\n' = false
  next : ∀ c, trail.accepts style c = true → page.needsSpace c = false → joins c = false
  start : page.written = [] → ∀ c, joins c = false

section Describes

variable {style : Style} {encoding : Encoding} {trail : Trail} {joins : Char → Bool} {page : Page}

theorem needsSpace_token {text : String} {c : Char} (last : Char)
    (hlast : text.toList.getLast? = some last) :
    (page.token text).needsSpace c = mergeable last c := by
  rcases List.getLast?_eq_some_iff.mp hlast with ⟨front, htext⟩
  unfold Page.token
  cases hlist : text.toList with
  | nil => simp [hlist] at hlast
  | cons d rest =>
      rw [hlist] at htext
      simp only [htext]
      simp [Page.needsSpace]

theorem token_written (page : Page) {text : String} (hne : text.toList ≠ []) :
    (page.token text).written ≠ [] := by
  unfold Page.token
  cases hlist : text.toList with
  | nil => exact absurd hlist hne
  | cons d rest => simp

theorem token_style (page : Page) (text : String) : (page.token text).style = page.style := by
  unfold Page.token
  split <;> rfl

theorem describes_word {text : String} (hstyle : page.style = style) (hne : text.toList ≠ [])
    (hascii : style = .compact → isAsciiName text = true) :
    Trail.word.Describes style isNamePart (page.token text) where
  style_eq := (token_style page text).trans hstyle
  space := by decide
  feed := by decide
  start h := absurd h (token_written _ hne)
  next c haccepts hspace := by
    rcases List.exists_cons_of_ne_nil hne with ⟨d, rest, hlist⟩
    have hlast := List.getLast?_eq_some_getLast hne
    rw [needsSpace_token _ hlast] at hspace
    simp only [Trail.accepts, Bool.or_eq_true, Bool.not_eq_true', Bool.and_eq_true,
      beq_iff_eq] at haccepts
    rcases haccepts with hpart | ⟨hcompact, hword⟩
    · exact hpart
    · have hend : isWordChar (text.toList.getLast hne) = true :=
        List.all_eq_true.mp (hascii hcompact) _ (List.getLast_mem hne)
      simp [mergeable, hend, hword] at hspace

theorem describes_letters {text : String} (hstyle : page.style = style)
    (hne : text.toList ≠ []) :
    Trail.letters.Describes style isNamePart (page.token text) where
  style_eq := (token_style page text).trans hstyle
  space := by decide
  feed := by decide
  start h := absurd h (token_written _ hne)
  next _ haccepts _ := by simpa [Trail.accepts] using haccepts

theorem describes_numeral {text : String} (hstyle : page.style = style) (hne : text.toList ≠ []) :
    Trail.word.Describes style continuesNumber (page.write (.numeral text)) where
  style_eq := (token_style page text).trans hstyle
  space := by decide
  feed := by decide
  start h := absurd h (token_written _ hne)
  next c haccepts hspace := by
    have hwritten := token_written page hne
    simp only [Page.write, Page.needsSpace, Bool.true_and] at hspace
    split at hspace
    · rename_i hnil
      exact absurd hnil hwritten
    · simp only [Bool.or_eq_false_iff] at hspace
      simp only [Trail.accepts, hspace.1.1, Bool.and_false, Bool.or_false, Bool.not_eq_true']
        at haccepts
      simp [continuesNumber, haccepts, hspace.1.2]

theorem describes_clear (page : Page) (hstyle : page.style = style) :
    Trail.clear.Describes style (fun _ => false) page :=
  ⟨hstyle, rfl, rfl, fun _ _ _ => rfl, fun _ _ => rfl⟩

/-- A sign that is kept apart from the next character is not joined with it. -/
theorem joinsSign_false (style : Style) {sign : String} {c : Char} (last : Char)
    (hlast : sign.toList.getLast? = some last)
    (haccepts : (Trail.afterSign sign).accepts style c = true) (hmerge : mergeable last c = false) :
    joinsSign sign c = false := by
  have hend : ∀ l, sign.toList.getLast? = some l → last = l := by
    intro l hl
    rw [hl] at hlast
    exact (Option.some.inj hlast).symm
  unfold joinsSign
  split
  · rw [hend '.' (by decide)] at hmerge
    have hname : isNameStart c = true := haccepts
    have hdigit : c.isDigit = false := by
      cases hdigit : c.isDigit with
      | false => rfl
      | true => rw [isNameStart_of_isDigit hdigit] at hname; cases hname
    have hpoint : ('.' == c) = false := by
      rw [beq_eq_false_iff_ne]
      rintro rfl
      exact absurd hname (by decide)
    rw [hpoint, hdigit, Bool.or_self]
  · rw [hend '.' (by decide)] at hmerge
    rw [beq_eq_false_iff_ne]
    rintro rfl
    exact absurd hmerge (by decide)
  · have hname : isNameStart c = true := haccepts
    rw [beq_eq_false_iff_ne]
    rintro rfl
    exact absurd hname (by decide)
  · rw [hend '=' (by decide)] at hmerge
    rw [beq_eq_false_iff_ne]
    rintro rfl
    exact absurd hmerge (by decide)
  · rw [hend '>' (by decide)] at hmerge
    rw [beq_eq_false_iff_ne]
    rintro rfl
    exact absurd hmerge (by decide)
  · rw [hend '~' (by decide)] at hmerge
    rw [beq_eq_false_iff_ne]
    rintro rfl
    exact absurd hmerge (by decide)
  · rw [hend '<' (by decide)] at hmerge
    rw [Bool.or_eq_false_iff, beq_eq_false_iff_ne, beq_eq_false_iff_ne]
    constructor <;> rintro rfl
    · exact absurd hmerge (by decide)
    · cases haccepts
  · rw [beq_eq_false_iff_ne]
    rintro rfl
    cases haccepts
  · rw [hend '-' (by decide)] at hmerge
    rw [beq_eq_false_iff_ne]
    rintro rfl
    exact absurd hmerge (by decide)
  · rw [hend '[' (by decide)] at hmerge
    rw [Bool.or_eq_false_iff, beq_eq_false_iff_ne, beq_eq_false_iff_ne]
    constructor <;> rintro rfl <;> exact absurd hmerge (by decide)
  · rw [beq_eq_false_iff_ne]
    rintro rfl
    cases haccepts
  · rfl

theorem describes_sign {text : String} (hstyle : page.style = style) (h : text ∈ signs) :
    (Trail.afterSign text).Describes style (joinsSign text) (page.token text) where
  style_eq := (token_style page text).trans hstyle
  space := by
    revert h text
    decide
  feed := by
    revert h text
    decide
  start hnil := by
    have hne : ∀ text ∈ signs, text.toList ≠ [] := by decide
    exact absurd hnil (token_written _ (hne text h))
  next c haccepts hspace := by
    have hne : ∀ text ∈ signs, text.toList ≠ [] := by decide
    have hlast := List.getLast?_eq_some_getLast (hne text h)
    rw [needsSpace_token _ hlast] at hspace
    exact joinsSign_false style _ hlast haccepts hspace

/-!
## Pieces of a page
-/

def ReadsAll (pieces : List Piece) (ts : List Token) : Prop :=
  ∃ front t, ts = front ++ [t] ∧ t.kind = .finish ∧ Reads pieces front

/-- What pieces are cut into on a page: the last token is not continued, and the rest are
their tokens. -/
def Continues (joins : Char → Bool) (pieces : List Piece) (text : List Char) : Prop :=
  StartsOutside joins text ∧ ∀ adjoins, LexesAs adjoins text (ReadsAll pieces)

/-- A token in front of what follows it, with the space that keeps it apart. -/
theorem Continues.token {kind : Lexeme.Kind} {text : String} {ps qs : List Piece}
    {rest : List Char} (hd : trail.Describes style joins page)
    (haccepts : trail.Accepts style text) (hkind : kind.isTrivia = false)
    (hcut : cutLexeme (text.toList ++ rest) = some (kind, (text.toList, rest)))
    (hrest : LexesAs true rest (ReadsAll ps))
    (hreads : ∀ t ts, t.kind = kind → t.text = text → Reads ps ts → Reads qs (t :: ts)) :
    Continues joins qs (page.added (.token text) ++ rest) := by
  have htoken : ∀ adjoins, LexesAs adjoins (text.toList ++ rest) (ReadsAll qs) := by
    intro adjoins
    refine lexes_token hcut hkind fun fuel line hfuel => ?_
    rcases hrest fuel line hfuel with ⟨lexemes, hlex, front, t, hts, ht, hfront⟩
    refine ⟨lexemes, hlex, fun line => ?_⟩
    rw [hts, String.ofList_toList]
    exact ⟨_ :: front, t, rfl, ht, hreads _ front rfl rfl hfront⟩
  rcases List.exists_cons_of_ne_nil (cutLexeme_ne_nil hcut) with ⟨c, more, hlist⟩
  have haccepted := haccepts c (by simp [hlist])
  rw [hlist] at htoken
  unfold Page.added
  simp only [hlist]
  cases hspace : page.needsSpace c with
  | true =>
      exact ⟨startsOutside_cons.mpr hd.space, fun _ => lexes_space (htoken false)⟩
  | false =>
      exact ⟨startsOutside_cons.mpr (hd.next c haccepted hspace), htoken⟩

theorem Alone.ne_nil {kind : Lexeme.Kind} {text : String} (h : Alone kind text) :
    text.toList ≠ [] :=
  cutLexeme_ne_nil h

theorem Continues.numeral {text : String} {ps : List Piece} {rest : List Char}
    (hd : trail.Describes style joins page) (haccepts : trail.Accepts style text)
    (h : Alone .number text)
    (hrest : Continues continuesNumber ps rest) :
    Continues joins (.numeral text :: ps) (page.added (.numeral text) ++ rest) := by
  refine Continues.token hd haccepts rfl (h.cutLexeme_append hrest.1) (hrest.2 true) ?_
  rintro t ts hkind rfl hreads
  exact show Reads _ ([t] ++ ts) from .numeral (.word (by rwa [hkind])) hreads

theorem reads_shift {t u : Token} {ps : List Piece} {ts : List Token} (ht : t.is ">" = true)
    (hu : u.is ">" = true) (hadjoins : u.adjoins = true) (hmore : Reads ps ts) :
    Reads (.token ">>" :: ps) (t :: u :: ts) :=
  show Reads _ ([t, u] ++ ts) from .token (.shift ht hu hadjoins) hmore

theorem Continues.shift {ps : List Piece} {rest : List Char}
    (hd : trail.Describes style joins page) (haccepts : trail.Accepts style ">>")
    (hrest : Continues (joinsSign ">") ps rest) :
    Continues joins (.token ">>" :: ps) (page.added (.token ">>") ++ rest) := by
  have hfirst : cutLexeme ('>' :: '>' :: rest) = some (.reserved, (['>'], '>' :: rest)) :=
    cutLexeme_of_sign (show ">" ∈ signs by decide) (startsOutside_cons.mpr (by decide))
  have hsecond : cutLexeme ('>' :: rest) = some (.reserved, (['>'], rest)) :=
    cutLexeme_of_sign (show ">" ∈ signs by decide) hrest.1
  have htokens : ∀ adjoins, LexesAs adjoins ('>' :: '>' :: rest)
      (ReadsAll (.token ">>" :: ps)) := by
    intro adjoins
    refine lexes_token hfirst rfl (lexes_token hsecond rfl ?_)
    intro fuel line hfuel
    rcases hrest.2 true fuel line hfuel with ⟨lexemes, hlex, front, t, hts, ht, hreads⟩
    refine ⟨lexemes, hlex, fun line line' => ?_⟩
    rw [hts]
    refine ⟨_ :: _ :: front, t, rfl, ht, reads_shift ?_ ?_ rfl hreads⟩
    · exact is_of_eq rfl (show String.ofList ['>'] = ">" by decide)
    · exact is_of_eq rfl (show String.ofList ['>'] = ">" by decide)
  have hlist : (">>" : String).toList = ['>', '>'] := by decide
  have haccepted := haccepts '>' (by decide)
  unfold Page.added
  simp only [hlist]
  cases hspace : page.needsSpace '>' with
  | true => exact ⟨startsOutside_cons.mpr hd.space, fun _ => lexes_space (htokens false)⟩
  | false => exact ⟨startsOutside_cons.mpr (hd.next _ haccepted hspace), htokens⟩

theorem Continues.silent {piece : Piece} {ps : List Piece} {rest : List Char}
    (hsilent : ∀ ts, Reads ps ts → Reads (piece :: ps) ts) (h : Continues joins ps rest) :
    Continues joins (piece :: ps) rest := by
  refine ⟨h.1, fun adjoins fuel line hfuel => ?_⟩
  rcases h.2 adjoins fuel line hfuel with ⟨lexemes, hlex, front, t, hts, ht, hreads⟩
  exact ⟨lexemes, hlex, front, t, hts, ht, hsilent front hreads⟩

theorem Continues.gap {ps : List Piece} {rest : List Char} (hd : trail.Describes style joins page)
    (hrest : ∀ {joins' : Char → Bool} {page' : Page}, page' = page.write .gap →
      (trail.spread style).Describes style joins' page' → Continues joins' ps rest) :
    Continues joins (.gap :: ps) (page.added .gap ++ rest) := by
  have hstyle := hd.style_eq
  have hreads : ∀ {joins' : Char → Bool}, Continues joins' ps rest →
      Continues joins' (.gap :: ps) rest := Continues.silent fun _ => .gap
  cases style with
  | compact =>
      have hpage : page.write .gap = page := by simp [Page.write, hstyle]
      have hadded : page.added .gap = [] := by simp [Page.added, hstyle]
      rw [hadded]
      exact hreads (hrest hpage.symm hd)
  | pretty =>
      have hadded : page.added .gap = [' '] := by simp [Page.added, hstyle]
      have hpage : (page.write .gap).style = .pretty := by simp [Page.write, hstyle]
      have hmore := hreads (hrest rfl (describes_clear _ hpage))
      rw [hadded]
      exact ⟨startsOutside_cons.mpr hd.space, fun _ => lexes_space (hmore.2 false)⟩

theorem Continues.newline {ps : List Piece} {rest : List Char} {depth : Nat}
    (hd : trail.Describes style joins page)
    (hrest : ∀ {joins' : Char → Bool} {page' : Page}, page' = page.write (.newline depth) →
      (trail.spread style).Describes style joins' page' → Continues joins' ps rest) :
    Continues joins (.newline depth :: ps) (page.added (.newline depth) ++ rest) := by
  have hstyle := hd.style_eq
  have hreads : ∀ {joins' : Char → Bool}, Continues joins' ps rest →
      Continues joins' (.newline depth :: ps) rest := Continues.silent fun _ => .newline
  cases style with
  | compact =>
      have hpage : page.write (.newline depth) = page := by simp [Page.write, hstyle]
      have hadded : page.added (.newline depth) = [] := by simp [Page.added, hstyle]
      rw [hadded]
      exact hreads (hrest hpage.symm hd)
  | pretty =>
      cases hwritten : page.written with
      | nil =>
          -- The first line of a page is not broken.
          have hpage : page.write (.newline depth) = page := by
            simp [Page.write, hstyle, hwritten]
          have hadded : page.added (.newline depth) = [] := by simp [Page.added, hstyle, hwritten]
          rw [hadded]
          exact hreads (hrest hpage.symm ⟨hstyle, hd.space, hd.feed,
            fun c _ _ => hd.start hwritten c, hd.start⟩)
      | cons c written =>
          have hadded : page.added (.newline depth) = '\n' :: List.replicate (4 * depth) ' ' := by
            simp [Page.added, hstyle, hwritten]
          have hpage : (page.write (.newline depth)).style = .pretty := by
            simp [Page.write, hstyle, hwritten]
          have hmore := hreads (hrest rfl (describes_clear _ hpage))
          rw [hadded, List.cons_append]
          exact ⟨startsOutside_cons.mpr hd.feed,
            fun _ => lexes_feed (lexes_spaces _ (hmore.2 false))⟩

/-- Pieces whose trail runs on are cut into their tokens, wherever the page stands. -/
theorem continues_flow {last : Trail} {ps : List Piece} {ending : List Char}
    (h : trail.Flow style encoding ps last) (hd : trail.Describes style joins page)
    (hending : ending = [] ∨ ending = ['\n']) :
    Continues joins ps (page.following ps ++ ending) := by
  induction h generalizing page joins with
  | nil =>
      have hempty : ∀ adjoins, LexesAs adjoins [] (ReadsAll []) := fun adjoins =>
        lexes_nil fun line => ⟨[], _, rfl, rfl, .nil⟩
      rcases hending with rfl | rfl
      · exact ⟨startsOutside_nil _, hempty⟩
      · exact ⟨startsOutside_cons.mpr hd.feed, fun _ => lexes_feed (hempty false)⟩
  | cons hstep _ ih =>
      rw [Page.following, List.append_assoc]
      cases hstep with
      | name h hascii haccepts =>
          have hrest := ih (describes_word hd.style_eq h.alone.ne_nil hascii)
          exact Continues.token hd haccepts rfl (h.alone.cutLexeme_append hrest.1)
            (hrest.2 true) fun t ts hkind htext hreads =>
              (reads_word h.alone).mpr ⟨t, ts, rfl, hkind, htext, hreads⟩
      | letters h haccepts =>
          have hrest := ih (describes_letters hd.style_eq h.alone.ne_nil)
          exact Continues.token hd haccepts rfl (h.alone.cutLexeme_append hrest.1)
            (hrest.2 true) fun t ts hkind htext hreads =>
              (reads_word h.alone).mpr ⟨t, ts, rfl, hkind, htext, hreads⟩
      | keyword h haccepts =>
          have hwords : ∀ word ∈ keywords, word.toList ≠ [] ∧ isAsciiName word = true := by decide
          have hrest := ih (describes_word hd.style_eq (hwords _ h).1 fun _ => (hwords _ h).2)
          exact Continues.token hd haccepts rfl (cutLexeme_of_keyword h hrest.1)
            (hrest.2 true) fun t ts hkind htext hreads =>
              (reads_word (alone_reserved (Or.inl h))).mpr ⟨t, ts, rfl, hkind, htext, hreads⟩
      | string h haccepts =>
          rename_i word _
          have hrest := ih (describes_clear _ ((token_style page word).trans hd.style_eq))
          exact Continues.token hd haccepts rfl (h.alone.cutLexeme_append trivial)
            (hrest.2 true) fun t ts hkind htext hreads =>
              (reads_word h.alone).mpr ⟨t, ts, rfl, hkind, htext, hreads⟩
      | sign h haccepts =>
          have hrest := ih (describes_sign hd.style_eq h)
          exact Continues.token hd haccepts rfl (cutLexeme_of_sign h hrest.1)
            (hrest.2 true) fun t ts hkind htext hreads =>
              (reads_word (alone_reserved (Or.inr h))).mpr ⟨t, ts, rfl, hkind, htext, hreads⟩
      | shift haccepts =>
          have hstyle := (token_style page ">>").trans hd.style_eq
          have hd' : Trail.clear.Describes style (joinsSign ">") (page.token ">>") := by
            refine ⟨hstyle, by decide, by decide, ?_,
              fun h => absurd h (token_written _ (by decide))⟩
            intro c _ hspace
            rw [needsSpace_token '>' (by decide)] at hspace
            exact joinsSign_false style '>' (by decide) rfl hspace
          exact Continues.shift hd haccepts (ih hd')
      | numeral h haccepts =>
          exact Continues.numeral hd haccepts h.alone
            (ih (describes_numeral hd.style_eq h.alone.ne_nil))
      | gap =>
          refine Continues.gap hd ?_
          rintro joins' page' rfl hd'
          exact ih hd'
      | newline =>
          refine Continues.newline hd ?_
          rintro joins' page' rfl hd'
          exact ih hd'

end Describes

/-!
## Printed bodies
-/

def Page.blank (style : Style) : Page :=
  { style }

theorem print_text (style : Style) (body : List Stat) :
    ∃ ending, print style body =
        (Page.blank style).following (blockPieces style 0 false body) ++ ending ∧
      (ending = [] ∨ ending = ['\n']) := by
  rcases endLine_text ((Page.blank style).writeAll (blockPieces style 0 false body)) with
    ⟨ending, htext, hending⟩
  refine ⟨ending, ?_, hending⟩
  rw [writeAll_text] at htext
  exact htext

/-- The first character of a printed body starts no byte order mark and no interpreter line. -/
theorem print_starts {style : Style} {encoding : Encoding} {body : List Stat}
    (hbody : blockWellFormed encoding body) :
    ∀ c ∈ (print style body).head?, c ≠ '\uFEFF' ∧ c ≠ '#' := by
  rcases print_text style body with ⟨ending, htext, hending⟩
  rw [htext]
  cases body with
  | nil =>
      rw [blockPieces]
      rcases hending with rfl | rfl
      · exact fun c hc => by cases hc
      · intro c hc
        cases hc
        decide
  | cons s rest =>
      rcases heads_statement style 0 hbody.1 with ⟨word, more, heq, hword⟩
      have hpage : (Page.blank style).write (.newline 0) = Page.blank style := by
        cases style <;> rfl
      have hadded : (Page.blank style).added (.newline 0) = [] := by
        cases style <;> rfl
      have hstart : ∃ d letters, word.toList = d :: letters ∧ d ≠ '\uFEFF' ∧ d ≠ '#' := by
        have hwords : ∀ word ∈ "(" :: statementWords,
            word.toList.head?.any (fun c => c != '\uFEFF' && c != '#') = true := by
          decide
        have hreserved : word ∈ "(" :: statementWords →
            ∃ d letters, word.toList = d :: letters ∧ d ≠ '\uFEFF' ∧ d ≠ '#' := by
          intro hmem
          have hfacts := hwords word hmem
          cases hlist : word.toList with
          | nil => simp [hlist] at hfacts
          | cons d letters =>
              refine ⟨d, letters, rfl, ?_⟩
              simpa [hlist] using hfacts
        unfold Stat.Heads at hword
        split at hword
        · exact hreserved (by simp [hword])
        · rcases hword with hname | hmem
          · rcases List.exists_cons_of_ne_nil hname.alone.ne_nil with ⟨d, letters, hlist⟩
            have hletter : isNameStart d = true := hname.alone.starts d (by simp [hlist])
            refine ⟨d, letters, hlist, ?_, ?_⟩ <;> rintro rfl <;> revert hletter <;> decide +kernel
          · exact hreserved (by simp [hmem])
      rcases hstart with ⟨d, letters, hlist, hd⟩
      have hfirst : (Page.blank style).added (.token word) = d :: letters := by
        simp [Page.added, hlist, Page.needsSpace, Page.blank]
      rw [blockPieces, heq]
      simp only [Bool.false_and, Bool.false_eq_true, if_false, List.cons_append, Page.following,
        hpage, hadded, List.nil_append, hfirst]
      intro c hc
      cases hc
      exact hd

theorem lex_of_starts {text : List Char} (h : ∀ c ∈ text.head?, c ≠ '\uFEFF' ∧ c ≠ '#') :
    lex text = lexFrom text.length 1 text := by
  have hmark : dropByteOrderMark text = text := by
    unfold dropByteOrderMark
    split
    · exact absurd rfl (h _ rfl).1
    · rfl
  have hline : dropInterpreterLine text = (1, text) := by
    unfold dropInterpreterLine
    split
    · exact absurd rfl (h _ rfl).2
    · rfl
  rw [lex, hmark, hline]

theorem lex_print {style : Style} {encoding : Encoding} {body : List Stat}
    (hbody : blockWellFormed encoding body) (hnames : Prints style (blockNames body)) :
    ∃ lexemes, lex (print style body) = .ok lexemes ∧
      ReadsAll (blockPieces style 0 false body) (tokens lexemes) := by
  rcases print_text style body with ⟨ending, htext, hending⟩
  rcases block_flows style 0 false body hbody hnames .clear Trail.closed_clear with ⟨_, _, hflow⟩
  have hcontinues := continues_flow hflow (describes_clear (Page.blank style) rfl) hending
  rw [← htext] at hcontinues
  rw [lex_of_starts (print_starts hbody)]
  exact hcontinues.2 false _ 1 (Nat.le_refl _)

/-- A printed body is read as the body again, up to lines, marks and groups that its layout
does not show. -/
theorem program_print {style : Style} {encoding : Encoding} {body : List Stat}
    (hbody : blockWellFormed encoding body) (hnames : Prints style (blockNames body)) :
    ∃ lexemes body', lex (print style body) = .ok lexemes ∧
      program (tokens lexemes) = .ok body' ∧
      strippedBlock .binary body' = strippedBlock regrouped body := by
  rcases lex_print hbody hnames with ⟨lexemes, hlex, front, t, hts, ht, hreads⟩
  rcases program_found hbody hreads ht with ⟨body', hprogram, hread⟩
  exact ⟨lexemes, body', hlex, hts ▸ hprogram, hread⟩

end Lua
end LuaBundle
