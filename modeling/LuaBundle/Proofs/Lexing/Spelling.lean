import LuaBundle.Proofs.Lexing.Cut
import Mathlib.Tactic.FinCases

/-!
# Words that stand alone

A text stands alone as a lexeme of a kind when the lexer, given nothing else, cuts off all of
it.  The names, numbers and string literals of a source stand alone, and a text that stands
alone is cut off again in front of every text that cannot continue it.
-/

namespace LuaBundle
namespace Lua

open Text

/-!
## The first lexeme by its first character
-/

theorem cutBlank_of_visible {c : Char} {rest : List Char} (hpad : isPad c = false)
    (hfeed : c ≠ '\n') (hreturn : c ≠ '\r') :
    cutBlank (c :: rest) = ([], c :: rest) := by
  simp [cutBlank, cutWhile, hpad, cutLineBreak, hfeed, hreturn, Cut.after]

theorem cutLexeme_quote {quote : Char} (rest : List Char)
    (hquote : quote = '\'' ∨ quote = '"') :
    cutLexeme (quote :: rest) =
      (cutQuoted quote false rest).map fun cut => (.string, cut.after [quote]) := by
  rcases hquote with rfl | rfl
  · simp [cutLexeme, cutBlank_of_visible (show isPad '\'' = false by decide)]
  · simp [cutLexeme, cutBlank_of_visible (show isPad '"' = false by decide)]

theorem cutLexeme_bracket (rest : List Char) :
    cutLexeme ('[' :: rest) =
      match longBracket rest with
      | .closed cut => some (.string, cut)
      | .unclosed => none
      | .unopened 0 _ => some (.reserved, (['['], rest))
      | .unopened _ _ => none := by
  unfold cutLexeme
  rw [cutBlank_of_visible (show isPad '[' = false by decide) (by decide) (by decide)]
  rfl

theorem cutLexeme_word {c : Char} (rest : List Char) (hc : isNameStart c = true) :
    cutLexeme (c :: rest) =
      some (if String.ofList (cutWhile isNamePart (c :: rest)).1 ∈ keywords then .reserved
        else .name, cutWhile isNamePart (c :: rest)) := by
  have hne : ∀ d, isNameStart d = false → c ≠ d := by
    rintro d hd rfl
    rw [hc] at hd
    exact absurd hd (by simp)
  have hpad : isPad c = false := by
    simp [isPad, hne ' ' (by decide), hne '\t' (by decide)]
  simp [cutLexeme, cutBlank_of_visible hpad (hne _ (by decide)) (hne _ (by decide)), hc,
    hne '-' (by decide), hne '\'' (by decide), hne '"' (by decide), hne '[' (by decide),
    hne '#' (by decide)]

theorem isNamePart_of_isNameStart {c : Char} (hc : isNameStart c = true) :
    isNamePart c = true := by
  simp only [isNameStart, Bool.or_eq_true] at hc
  rcases hc with hc | hc <;> simp [isNamePart, hc]

theorem isNameStart_of_isDigit {c : Char} (hc : c.isDigit = true) : isNameStart c = false := by
  simp only [Char.isDigit, Bool.and_eq_true, decide_eq_true_eq, UInt32.le_iff_toNat_le,
    ge_iff_le] at hc
  have hnine : '9'.val.toNat = 0x39 := rfl
  have hupper : 'A'.val.toNat = 0x41 := rfl
  have hlower : 'a'.val.toNat = 0x61 := rfl
  have hascii : c.toNat < 0x80 := by
    simp only [Char.toNat]
    omega
  have halpha : c.isAlpha = false := by
    simp only [isAlpha_eq, isUpper_eq, isLower_eq, Bool.or_eq_false_iff,
      Bool.and_eq_false_iff, decide_eq_false_iff_not, UInt32.le_iff_toNat_le]
    grind
  have hscore : c ≠ '_' := by
    rintro rfl
    exact absurd hc.2 (by decide)
  simp [isNameStart, isLetter, hascii, halpha, hscore]

theorem cutNumber_head {text : List Char} {cut : Cut} (h : cutNumber text = some cut) :
    ∃ c rest, text = c :: rest ∧ (c.isDigit = true ∨ c = '.') := by
  cases numberCut_of_cutNumber h with
  | decimal hc _ => exact ⟨_, _, rfl, Or.inl hc⟩
  | point _ => exact ⟨_, _, rfl, Or.inr rfl⟩
  | zero _ _ => exact ⟨_, _, rfl, Or.inl (by decide)⟩
  | hexadecimal _ _ => exact ⟨_, _, rfl, Or.inl (by decide)⟩

theorem cutLexeme_sign {c : Char} {rest : List Char} (hpad : isPad c = false)
    (hstart : isNameStart c = false)
    (hplain : ∀ d ∈ ['\n', '\r', '\'', '"', '['], c ≠ d)
    (hdashes : c = '-' → ∀ d ∈ rest.head?, d ≠ '-')
    (hshebang : c = '#' → ∀ d ∈ rest.head?, d ≠ '!') :
    cutLexeme (c :: rest) =
      match cutNumber (c :: rest) with
      | some cut => some (.number, cut)
      | none => (cutReserved (c :: rest)).map fun cut => (.reserved, cut) := by
  have hblank : cutBlank (c :: rest) = ([], c :: rest) :=
    cutBlank_of_visible hpad (hplain _ (by simp)) (hplain _ (by simp))
  simp only [cutLexeme, hblank]
  split
  · simp_all
  · simp_all
  · simp_all
  · simp_all
  · simp_all
  · simp_all
  · rename_i heq
    rcases List.cons.inj heq with ⟨rfl, rfl⟩
    have hname : ¬isNameStart c = true := by simp [hstart]
    refine (if_neg hname).trans ?_
    cases cutNumber (c :: rest) <;> rfl

theorem cutLexeme_number {text : List Char} {cut : Cut} (h : cutNumber text = some cut) :
    cutLexeme text = some (.number, cut) := by
  rcases cutNumber_head h with ⟨c, rest, rfl, hc⟩
  have hne : ∀ d : Char, d.isDigit = false → d ≠ '.' → c ≠ d := by
    rintro d hd hpoint rfl
    rcases hc with hc | hc
    · rw [hc] at hd
      exact absurd hd (by simp)
    · exact hpoint hc
  have hstart : isNameStart c = false := by
    rcases hc with hc | rfl
    · exact isNameStart_of_isDigit hc
    · decide
  have hpad : isPad c = false := by
    simp [isPad, hne ' ' (by decide) (by decide), hne '\t' (by decide) (by decide)]
  have hplain : ∀ d ∈ ['\n', '\r', '\'', '"', '['], c ≠ d := by
    intro d hd
    simp only [List.mem_cons, List.not_mem_nil, or_false] at hd
    rcases hd with rfl | rfl | rfl | rfl | rfl <;> exact hne _ (by decide) (by decide)
  rw [cutLexeme_sign hpad hstart hplain
    (fun hdash => absurd hdash (hne _ (by decide) (by decide)))
    (fun hhash => absurd hhash (hne _ (by decide) (by decide))), h]

inductive FirstLexeme (text : List Char) : Lexeme.Kind → Cut → Prop where
  | blank (h : (cutBlank text).1 ≠ []) : FirstLexeme text .blank (cutBlank text)
  | comment {rest kind cut} (htext : text = '-' :: '-' :: rest)
      (h : cutComment rest = some (kind, cut)) : FirstLexeme text kind cut
  | quoted {quote rest cut} (hquote : quote = '\'' ∨ quote = '"') (htext : text = quote :: rest)
      (h : cutQuoted quote false rest = some cut) : FirstLexeme text .string (cut.after [quote])
  | bracketed {rest cut} (htext : text = '[' :: rest) (h : longBracket rest = .closed cut) :
      FirstLexeme text .string cut
  | word {c rest} (htext : text = c :: rest) (h : isNameStart c = true) :
      FirstLexeme text
        (if String.ofList (cutWhile isNamePart text).1 ∈ keywords then .reserved else .name)
        (cutWhile isNamePart text)
  | number {cut} (h : cutNumber text = some cut) : FirstLexeme text .number cut
  | bracket {rest} (htext : text = '[' :: rest) : FirstLexeme text .reserved (['['], rest)
  | sign {cut} (h : cutReserved text = some cut) : FirstLexeme text .reserved cut

theorem firstLexeme_of_cutLexeme {text : List Char} {kind : Lexeme.Kind} {cut : Cut}
    (h : cutLexeme text = some (kind, cut)) : FirstLexeme text kind cut := by
  unfold cutLexeme at h
  split at h
  · rename_i c blank rest hblank
    simp only [Option.some.injEq, Prod.mk.injEq] at h
    rcases h with ⟨rfl, rfl⟩
    rw [← hblank]
    exact .blank (by simp [hblank])
  · split at h
    · simp at h
    · exact .comment rfl h
    · rcases Option.map_eq_some_iff.mp h with ⟨inner, hinner, heq⟩
      simp only [Prod.mk.injEq] at heq
      rcases heq with ⟨rfl, rfl⟩
      exact .quoted (Or.inl rfl) rfl hinner
    · rcases Option.map_eq_some_iff.mp h with ⟨inner, hinner, heq⟩
      simp only [Prod.mk.injEq] at heq
      rcases heq with ⟨rfl, rfl⟩
      exact .quoted (Or.inr rfl) rfl hinner
    · rename_i rest _
      split at h
      · rename_i inner hinner
        simp only [Option.some.injEq, Prod.mk.injEq] at h
        rcases h with ⟨rfl, rfl⟩
        exact .bracketed rfl hinner
      · simp at h
      · simp only [Option.some.injEq, Prod.mk.injEq] at h
        rcases h with ⟨rfl, rfl⟩
        exact .bracket rfl
      · simp at h
    · simp at h
    · rename_i c rest _ _ _ _ _
      split at h
      · rename_i hstart
        simp only [Option.some.injEq, Prod.mk.injEq] at h
        rcases h with ⟨rfl, rfl⟩
        exact .word rfl hstart
      · split at h
        · rename_i inner hinner
          simp only [Option.some.injEq, Prod.mk.injEq] at h
          rcases h with ⟨rfl, rfl⟩
          exact .number hinner
        · rcases Option.map_eq_some_iff.mp h with ⟨inner, hinner, heq⟩
          simp only [Prod.mk.injEq] at heq
          rcases heq with ⟨rfl, rfl⟩
          exact .sign hinner

/-!
## The parts of a cut
-/

theorem cutLineBreak_append (text : List Char) :
    (cutLineBreak text).1 ++ (cutLineBreak text).2 = text := by
  unfold cutLineBreak
  split <;> rfl

theorem cutBlank_append (text : List Char) :
    (cutBlank text).1 ++ (cutBlank text).2 = text := by
  have hpads := cutWhile_append isPad text
  have hbreak := cutLineBreak_append (cutWhile isPad text).2
  simp [cutBlank, Cut.after, hbreak, hpads]

theorem cutReserved_append {text front rest : List Char}
    (h : cutReserved text = some (front, rest)) : text = front ++ rest := by
  rcases Option.map_eq_some_iff.mp h with ⟨sign, hsign, heq⟩
  simp only [Prod.mk.injEq] at heq
  rcases heq with ⟨rfl, rfl⟩
  have hstarts := List.find?_some hsign
  rcases List.isPrefixOf_iff_prefix.mp hstarts with ⟨after, rfl⟩
  rw [← String.length_toList]
  simp

theorem cutComment_kind {text : List Char} {kind : Lexeme.Kind} {cut : Cut}
    (h : cutComment text = some (kind, cut)) : kind = .lineComment ∨ kind = .longComment := by
  unfold cutComment at h
  split at h
  · split at h <;> simp_all
  · simp_all

theorem cutComment_append {text front rest : List Char} {kind : Lexeme.Kind}
    (h : cutComment text = some (kind, (front, rest))) : '-' :: '-' :: text = front ++ rest := by
  have hline : ∀ text : List Char,
      some (Lexeme.Kind.lineComment, (cutWhile (· != '\n') text).after ['-', '-']) =
        some (kind, (front, rest)) → '-' :: '-' :: text = front ++ rest := by
    intro text heq
    have happend := cutWhile_append (· != '\n') text
    simp only [Cut.after, Option.some.injEq, Prod.mk.injEq] at heq
    rw [← heq.2.1, ← heq.2.2]
    simp [happend]
  unfold cutComment at h
  split at h
  · split at h
    · rename_i cut hcut
      rcases cut with ⟨inner, after⟩
      simp only [Cut.after, Option.some.injEq, Prod.mk.injEq] at h
      rcases h with ⟨_, rfl, rfl⟩
      rcases longBracket_stable hcut with ⟨inner, rfl, rfl, _⟩
      simp
    · simp at h
    · simp at h
    · exact hline _ h
  · exact hline _ h

theorem cutLexeme_append {text front rest : List Char} {kind : Lexeme.Kind}
    (h : cutLexeme text = some (kind, (front, rest))) : text = front ++ rest := by
  generalize hcut : (front, rest) = cut at h
  have hparts : text = cut.1 ++ cut.2 := by
    cases firstLexeme_of_cutLexeme h with
    | blank _ => exact (cutBlank_append text).symm
    | comment htext hcomment => rw [htext]; exact cutComment_append hcomment
    | quoted hquote htext hquoted =>
        rename_i quote _ inner
        rcases inner with ⟨inner, after⟩
        rw [htext, (cutQuoted_stable hquoted).1]
        rfl
    | bracketed htext hlong =>
        rcases cut with ⟨inner, after⟩
        rcases longBracket_stable hlong with ⟨inner, rfl, rfl, _⟩
        rw [htext]
        rfl
    | word htext _ => exact (cutWhile_append isNamePart text).symm
    | number hnumber => exact (cutNumber_stable hnumber).1
    | bracket htext => rw [htext]; rfl
    | sign hsign => exact cutReserved_append hsign
  rw [hparts, ← hcut]

theorem cutLexeme_ne_nil {text front rest : List Char} {kind : Lexeme.Kind}
    (h : cutLexeme text = some (kind, (front, rest))) : front ≠ [] := by
  generalize hcut : (front, rest) = cut at h
  cases firstLexeme_of_cutLexeme h with
  | blank hblank =>
      rw [← hcut] at hblank
      exact hblank
  | comment _ hcomment =>
      have hdashes : ∀ inner : Cut, (front, rest) = inner.after ['-', '-'] → front ≠ [] := by
        rintro inner heq rfl
        cases heq
      unfold cutComment at hcomment
      split at hcomment
      · split at hcomment <;> cases hcomment
        · exact hdashes _ hcut
        · exact hdashes _ hcut
      · cases hcomment
        exact hdashes _ hcut
  | quoted _ _ _ =>
      rintro rfl
      cases hcut
  | bracketed _ hlong =>
      subst hcut
      rcases longBracket_stable hlong with ⟨inner, rfl, _⟩
      exact List.cons_ne_nil _ _
  | word htext hstart =>
      rename_i c more
      rintro rfl
      simp [htext, cutWhile, isNamePart_of_isNameStart hstart] at hcut
  | number hnumber =>
      subst hcut
      rintro rfl
      cases (cutNumber_stable hnumber).2 [] (startsOutside_nil _)
  | bracket _ =>
      rintro rfl
      cases hcut
  | sign hsign =>
      have hne : ∀ text ∈ signs, text.toList ≠ [] := by decide
      rcases Option.map_eq_some_iff.mp hsign with ⟨sign, hfound, heq⟩
      cases hcut.trans heq.symm
      exact hne sign (List.mem_of_find?_eq_some hfound)

/-!
## The lexemes of a text
-/

/-- The lexemes that are cut off a text one after the other, from a line on. -/
inductive LexedAs : Nat → List Char → List Lexeme → Prop where
  | finish {line} : LexedAs line [] [⟨.finish, "", line⟩]
  | cut {line text kind front rest others} (h : cutLexeme text = some (kind, (front, rest)))
      (more : LexedAs (line + lineFeeds front) rest others) :
      LexedAs line text (⟨kind, String.ofList front, line⟩ :: others)

theorem lexedAs_of_lexFrom {fuel line : Nat} {text : List Char} {lexemes : List Lexeme}
    (h : lexFrom fuel line text = .ok lexemes) : LexedAs line text lexemes := by
  induction fuel generalizing line text lexemes with
  | zero =>
      cases text with
      | nil =>
          cases h
          exact .finish
      | cons c rest => cases h
  | succ fuel ih =>
      cases text with
      | nil =>
          cases h
          exact .finish
      | cons c rest =>
          rw [lexFrom] at h
          cases hcut : cutLexeme (c :: rest) with
          | none => simp [hcut] at h
          | some found =>
              rcases found with ⟨kind, front, after⟩
              simp only [hcut, bind, Except.bind, pure, Except.pure] at h
              cases hothers : lexFrom fuel (line + lineFeeds front) after with
              | error line => simp [hothers] at h
              | ok others =>
                  simp only [hothers, Except.ok.injEq] at h
                  subst h
                  exact .cut hcut (ih hothers)

/-!
## Standing alone
-/

/-- A text that is one lexeme by itself. -/
def Alone (kind : Lexeme.Kind) (text : String) : Prop :=
  cutLexeme text.toList = some (kind, (text.toList, []))

def startsLexeme : Lexeme.Kind → Char → Prop
  | .name, c => isNameStart c = true
  | .string, c => c = '\'' ∨ c = '"' ∨ c = '['
  | .number, c => c.isDigit = true ∨ c = '.'
  | _, _ => True

theorem Alone.starts {kind : Lexeme.Kind} {text : String} (h : Alone kind text) :
    ∀ c ∈ text.toList.head?, startsLexeme kind c := by
  intro c hc
  unfold Alone at h
  generalize hcut : (text.toList, ([] : List Char)) = cut at h
  cases firstLexeme_of_cutLexeme h with
  | blank _ => trivial
  | comment htext hcomment => rcases cutComment_kind hcomment with rfl | rfl <;> trivial
  | quoted hquote htext _ =>
      rw [htext] at hc
      cases hc
      exact hquote.imp_right Or.inl
  | bracketed htext _ =>
      rw [htext] at hc
      cases hc
      exact Or.inr (Or.inr rfl)
  | word htext hstart =>
      rw [htext] at hc
      cases hc
      split
      · trivial
      · exact hstart
  | number hnumber =>
      rcases cutNumber_head hnumber with ⟨d, rest, htext, hd⟩
      rw [htext] at hc
      cases hc
      exact hd
  | bracket _ => trivial
  | sign _ => trivial

/-- The texts that cannot continue a lexeme of a kind. -/
def EndsBefore : Lexeme.Kind → List Char → Prop
  | .name, tail => StartsOutside isNamePart tail
  | .number, tail => StartsOutside continuesNumber tail
  | .string, _ => True
  | _, _ => False

/-- A name, a number or a string literal is cut off again in front of any text that cannot
continue it. -/
theorem cutLexeme_stable {text front rest tail : List Char} {kind : Lexeme.Kind}
    (h : cutLexeme text = some (kind, (front, rest))) (htail : EndsBefore kind tail) :
    cutLexeme (front ++ tail) = some (kind, (front, tail)) := by
  generalize hcut : (front, rest) = cut at h
  cases firstLexeme_of_cutLexeme h with
  | blank _ => exact htail.elim
  | comment htext hcomment =>
      rcases cutComment_kind hcomment with rfl | rfl <;> exact htail.elim
  | quoted hquote htext hquoted =>
      rename_i quote _ inner
      rcases inner with ⟨inner, after⟩
      simp only [Cut.after, Prod.mk.injEq] at hcut
      rcases hcut with ⟨rfl, rfl⟩
      rw [List.append_assoc, List.singleton_append, cutLexeme_quote _ hquote,
        (cutQuoted_stable hquoted).2 tail]
      rfl
  | bracketed htext hlong =>
      subst hcut
      rcases longBracket_stable hlong with ⟨inner, rfl, _, hstable⟩
      rw [List.cons_append, cutLexeme_bracket, hstable tail]
  | word htext hstart =>
      rename_i c more
      subst htext
      rcases all_of_cutWhile hcut.symm with ⟨hall, _, hsplit⟩
      cases front with
      | nil =>
          simp [cutWhile, isNamePart_of_isNameStart hstart] at hcut
      | cons d front =>
          simp only [List.cons_append, List.cons.injEq] at hsplit
          rcases hsplit with ⟨rfl, _⟩
          have houtside : StartsOutside isNamePart tail := by
            revert htail
            split
            · exact fun htail => htail.elim
            · exact id
          rw [List.cons_append, cutLexeme_word _ hstart, ← List.cons_append,
            cutWhile_of_all hall houtside, ← hcut]
  | number hnumber =>
      subst hcut
      exact cutLexeme_number ((cutNumber_stable hnumber).2 tail htail)
  | bracket _ => exact htail.elim
  | sign _ => exact htail.elim

theorem endsBefore_nil {kind : Lexeme.Kind}
    (h : kind = .name ∨ kind = .number ∨ kind = .string) : EndsBefore kind [] := by
  rcases h with rfl | rfl | rfl
  · exact startsOutside_nil _
  · exact startsOutside_nil _
  · trivial

theorem alone_of_cutLexeme {text front rest : List Char} {kind : Lexeme.Kind}
    (h : cutLexeme text = some (kind, (front, rest)))
    (hkind : kind = .name ∨ kind = .number ∨ kind = .string) :
    Alone kind (String.ofList front) := by
  have hstable := cutLexeme_stable h (endsBefore_nil hkind)
  simpa [Alone] using hstable

theorem Alone.cutLexeme_append {kind : Lexeme.Kind} {text : String} {tail : List Char}
    (h : Alone kind text) (htail : EndsBefore kind tail) :
    cutLexeme (text.toList ++ tail) = some (kind, (text.toList, tail)) :=
  cutLexeme_stable h htail

/-!
## Keywords and signs

A keyword ends like a name.  A sign ends before every character that does not make a longer
sign, a number, a comment, a long bracket or an interpreter line of it.
-/

theorem cutLexeme_of_keyword {word : String} {tail : List Char} (h : word ∈ keywords)
    (htail : StartsOutside isNamePart tail) :
    cutLexeme (word.toList ++ tail) = some (.reserved, (word.toList, tail)) := by
  have hparts : ∀ word ∈ keywords, word.toList.all isNamePart = true := by decide
  have hstart : ∀ word ∈ keywords, word.toList.head?.any isNameStart = true := by decide
  have hhead := hstart word h
  have hcut := cutWhile_of_all (List.all_eq_true.mp (hparts word h)) htail
  cases hword : word.toList with
  | nil => simp [hword] at hhead
  | cons d more =>
      have hc : isNameStart d = true := by simpa [hword] using hhead
      have hlist : String.ofList (d :: more) = word := by rw [← hword, String.ofList_toList]
      rw [hword] at hcut
      rw [List.cons_append, cutLexeme_word _ hc, ← List.cons_append, hcut, hlist, if_pos h]

/-- Whether a sign and a character after it are read as something else than the sign. -/
def joinsSign (sign : String) (c : Char) : Bool :=
  match sign with
  | "." => '.' == c || c.isDigit
  | ".." => '.' == c
  | ":" => ':' == c
  | "=" | ">" | "~" => '=' == c
  | "<" => '=' == c || '<' == c
  | "/" => '/' == c
  | "-" => '-' == c
  | "[" => '[' == c || '=' == c
  | "#" => '!' == c
  | _ => false

theorem cutReserved_sign {sign : String} {tail : List Char} (h : sign ∈ signs)
    (htail : StartsOutside (joinsSign sign) tail) :
    cutReserved (sign.toList ++ tail) = some (sign.toList, tail) := by
  cases tail with
  | nil => fin_cases h <;> decide
  | cons c rest =>
      rw [startsOutside_cons] at htail
      fin_cases h <;> simp only [joinsSign, Bool.or_eq_false_iff] at htail <;>
        simp [cutReserved, signs, List.isPrefixOf, htail, ← String.length_toList]

theorem cutNumber_sign {sign : String} {tail : List Char} (h : sign ∈ signs)
    (htail : StartsOutside (joinsSign sign) tail) :
    cutNumber (sign.toList ++ tail) = none := by
  cases tail with
  | nil => fin_cases h <;> decide
  | cons c rest =>
      rw [startsOutside_cons] at htail
      fin_cases h <;> simp only [joinsSign, Bool.or_eq_false_iff] at htail <;>
        simp [cutNumber, htail]

theorem longBracket_outside {tail : List Char} (htail : StartsOutside (joinsSign "[") tail) :
    longBracket tail = .unopened 0 tail := by
  cases tail with
  | nil => rfl
  | cons c rest =>
      rw [startsOutside_cons] at htail
      simp only [joinsSign, Bool.or_eq_false_iff, beq_eq_false_iff_ne] at htail
      simp [longBracket, cutWhile, htail.1.symm, htail.2.symm]

/-- What the first character of a sign is not, and where a sign starts a dash or a hash. -/
theorem sign_head {sign : String} (h : sign ∈ signs) (hbracket : sign ≠ "[") :
    ∃ c more, sign.toList = c :: more ∧ isPad c = false ∧ isNameStart c = false ∧
      (∀ d ∈ ['\n', '\r', '\'', '"', '['], c ≠ d) ∧
      (c = '-' → sign = "-") ∧ (c = '#' → sign = "#") := by
  have hhead : ∀ sign ∈ signs, sign ≠ "[" → sign.toList.head?.any (fun c =>
      !isPad c && !isNameStart c && ['\n', '\r', '\'', '"', '['].all (c != ·) &&
        (c != '-' || sign == "-") && (c != '#' || sign == "#")) = true := by decide
  have hfacts := hhead sign h hbracket
  cases hsign : sign.toList with
  | nil => simp [hsign] at hfacts
  | cons c more =>
      simp only [hsign, List.head?_cons, Option.any_some, Bool.and_eq_true, Bool.not_eq_true',
        List.all_eq_true, bne_iff_ne, Bool.or_eq_true, beq_iff_eq] at hfacts
      rcases hfacts with ⟨⟨⟨⟨hpad, hstart⟩, hplain⟩, hdash⟩, hhash⟩
      exact ⟨c, more, rfl, hpad, hstart, hplain, hdash.resolve_left ∘ not_not_intro,
        hhash.resolve_left ∘ not_not_intro⟩

theorem cutLexeme_of_sign {sign : String} {tail : List Char} (h : sign ∈ signs)
    (htail : StartsOutside (joinsSign sign) tail) :
    cutLexeme (sign.toList ++ tail) = some (.reserved, (sign.toList, tail)) := by
  have hnumber := cutNumber_sign h htail
  have hsign := cutReserved_sign h htail
  by_cases hbracket : sign = "["
  · subst hbracket
    change cutLexeme ('[' :: tail) = _
    rw [cutLexeme_bracket, longBracket_outside htail]
    rfl
  · rcases sign_head h hbracket with ⟨c, more, hlist, hpad, hstart, hplain, hdash, hhash⟩
    rw [hlist, List.cons_append] at hnumber hsign ⊢
    rw [cutLexeme_sign hpad hstart hplain, hnumber]
    · rw [hsign]
      rfl
    · intro hc d hd
      have heq := hdash hc
      subst heq
      have hmore : more = [] := (List.cons.inj hlist).2.symm
      rw [hmore, List.nil_append] at hd
      have hd := htail d hd
      simp only [joinsSign, beq_eq_false_iff_ne] at hd
      exact hd.symm
    · intro hc d hd
      have heq := hhash hc
      subst heq
      have hmore : more = [] := (List.cons.inj hlist).2.symm
      rw [hmore, List.nil_append] at hd
      have hd := htail d hd
      simp only [joinsSign, beq_eq_false_iff_ne] at hd
      exact hd.symm

end Lua
end LuaBundle
