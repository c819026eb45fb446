import Mathlib.Algebra.Group.Nat.Defs
import LuaBundle.Project.Manifest
import LuaBundle.Proofs.Grammar.Starts
import LuaBundle.Proofs.Lexing.Spelling
import LuaBundle.Proofs.Text.Decoding

/-!
# No script is a manifest

The text of a manifest starts with a bracket or a brace, up to blanks.  No statement starts
with either, so a file that holds a manifest holds no script.
-/

namespace LuaBundle

open Text

/-!
## The start of a manifest
-/

theorem skipBlanks_split {text rest : List Char} {c : Char}
    (h : Json.skipBlanks text = c :: rest) :
    ∃ blanks, text = blanks ++ c :: rest ∧ ∀ b ∈ blanks, Json.isBlank b = true := by
  have hcut : Lua.cutWhile Json.isBlank text = (text.takeWhile Json.isBlank, c :: rest) := by
    rw [← h]
    rfl
  rcases Lua.all_of_cutWhile hcut with ⟨hblanks, _, htext⟩
  exact ⟨_, htext, hblanks⟩

def OpensTable (c : Char) : Prop :=
  c = '[' ∨ c = '\x7b'

theorem opens_of_valueIn {depth : Nat} {text rest : List Char} {value : Json.Value}
    {keys : List String} (h : Json.valueIn depth text = some (value, rest))
    (hkeys : (knownValues? keys value).isSome) :
    ∃ c more, Json.skipBlanks text = c :: more ∧ OpensTable c := by
  cases depth with
  | zero => cases h
  | succ depth =>
      unfold Json.valueIn at h
      split at h
      · cases h
        simp [knownValues?] at hkeys
      · cases h
        simp [knownValues?] at hkeys
      · cases h
        simp [knownValues?] at hkeys
      · rw [Option.map_eq_some_iff] at h
        rcases h with ⟨_, _, heq⟩
        cases heq
        simp [knownValues?] at hkeys
      · rename_i more hskip
        exact ⟨_, more, hskip, Or.inl rfl⟩
      · rename_i more hskip
        exact ⟨_, more, hskip, Or.inr rfl⟩
      · rw [Option.map_eq_some_iff] at h
        rcases h with ⟨_, _, heq⟩
        cases heq
        simp [knownValues?] at hkeys

theorem opens_of_ofText {directory : Path} {text : List Char} {manifest : Manifest}
    (h : Manifest.ofText? directory text = some manifest) :
    ∃ blanks c more, text = blanks ++ c :: more ∧ OpensTable c ∧
      ∀ b ∈ blanks, Json.isBlank b = true := by
  unfold Manifest.ofText? at h
  rw [Option.bind_eq_bind, Option.bind_eq_some_iff] at h
  rcases h with ⟨value, hread, h⟩
  rw [Option.bind_eq_bind, Option.bind_eq_some_iff] at h
  rcases h with ⟨values, hvalues, _⟩
  unfold Json.read? at hread
  cases hvalue : Json.valueIn (text.length + 1) text with
  | none => simp [hvalue] at hread
  | some found =>
      rcases found with ⟨value', rest⟩
      simp only [hvalue, Option.ite_none_right_eq_some, Option.some.injEq] at hread
      rw [hread.2] at hvalue
      rcases opens_of_valueIn hvalue (by rw [hvalues]; rfl) with ⟨c, more, hskip, hopens⟩
      rcases skipBlanks_split hskip with ⟨blanks, htext, hblanks⟩
      exact ⟨blanks, c, more, htext, hopens, hblanks⟩

/-!
## The start of a script
-/

open Lua

theorem isBlank_cases {b : Char} (h : Json.isBlank b = true) :
    b = ' ' ∨ b = '\t' ∨ b = '\n' ∨ b = '\r' := by
  simp only [Json.isBlank, Bool.or_eq_true, beq_iff_eq, or_assoc] at h
  exact h

theorem isBlank_of_cutBlank {text : List Char} {c : Char} (h : c ∈ (cutBlank text).1) :
    Json.isBlank c = true := by
  have hpads := (@all_of_cutWhile isPad text _ _ rfl).1
  simp only [cutBlank, Cut.after, List.mem_append] at h
  rcases h with h | h
  · have hpad := hpads c h
    simp only [isPad, Bool.or_eq_true, beq_iff_eq] at hpad
    rcases hpad with rfl | rfl <;> rfl
  · unfold cutLineBreak at h
    split at h
    · rw [List.mem_singleton.mp h]
      rfl
    · simp only [List.mem_cons, List.not_mem_nil, or_false] at h
      rcases h with rfl | rfl <;> rfl
    · cases h

theorem cutReserved_blank {b : Char} {rest : List Char} (hb : Json.isBlank b = true) :
    cutReserved (b :: rest) = none := by
  rcases isBlank_cases hb with rfl | rfl | rfl | rfl <;>
    simp [cutReserved, signs, List.isPrefixOf]

theorem cutLexeme_blank {b : Char} {rest : List Char} {kind : Lexeme.Kind} {cut : Cut}
    (hb : Json.isBlank b = true) (h : cutLexeme (b :: rest) = some (kind, cut)) :
    kind = .blank ∧ cut = cutBlank (b :: rest) := by
  have hne : ∀ c rest', b :: rest = c :: rest' → Json.isBlank c = false → False := by
    intro c rest' heq hc
    rw [(List.cons.inj heq).1, hc] at hb
    cases hb
  cases firstLexeme_of_cutLexeme h with
  | blank _ => exact ⟨rfl, rfl⟩
  | comment htext _ => exact (hne _ _ htext rfl).elim
  | quoted hquote htext _ =>
      rcases hquote with rfl | rfl <;> exact (hne _ _ htext rfl).elim
  | bracketed htext _ => exact (hne _ _ htext rfl).elim
  | word htext hstart =>
      rw [(List.cons.inj htext).1] at hb
      rcases isBlank_cases hb with rfl | rfl | rfl | rfl <;> exact absurd hstart (by decide)
  | number hnumber =>
      rcases cutNumber_head hnumber with ⟨c, _, htext, hc⟩
      rw [(List.cons.inj htext).1] at hb
      rcases isBlank_cases hb with rfl | rfl | rfl | rfl <;> exact absurd hc (by decide)
  | bracket htext => exact (hne _ _ htext rfl).elim
  | sign hsign =>
      rw [cutReserved_blank hb] at hsign
      cases hsign

/-- A token that no statement starts with, as a bracket or a brace makes it. -/
def OpensNothing (t : Token) : Prop :=
  t.kind = .string ∨ t.is "[" = true ∨ t.is "\x7b" = true

theorem cutLexeme_opening {c : Char} {rest : List Char} {kind : Lexeme.Kind} {cut : Cut}
    (hc : OpensTable c) (h : cutLexeme (c :: rest) = some (kind, cut)) :
    kind = .string ∨ kind = .reserved ∧ cut.1 = [c] := by
  rcases hc with rfl | rfl
  · rw [cutLexeme_bracket] at h
    split at h
    · cases h
      exact Or.inl rfl
    · cases h
    · cases h
      exact Or.inr ⟨rfl, rfl⟩
    · cases h
  · have hsign := @cutLexeme_of_sign "\x7b" rest (by decide) (by intro d _; rfl)
    change cutLexeme ('\x7b' :: rest) = _ at hsign
    rw [hsign] at h
    cases h
    exact Or.inr ⟨rfl, rfl⟩

theorem append_after_blanks {blanks front back rest : List Char} {c : Char}
    (hc : Json.isBlank c = false) (hfront : ∀ b ∈ front, Json.isBlank b = true)
    (h : blanks ++ c :: rest = front ++ back) :
    ∃ more, blanks = front ++ more ∧ back = more ++ c :: rest := by
  rcases List.append_eq_append_iff.mp h with ⟨more, hmore, hback⟩ | ⟨more, hmore, hback⟩
  · cases more with
    | nil => exact ⟨[], by simpa using hmore.symm, by simpa using hback.symm⟩
    | cons d more =>
        have hd : c = d := (List.cons.inj hback).1
        have hblank := hfront d (by simp [hmore])
        rw [← hd, hc] at hblank
        cases hblank
  · exact ⟨more, hmore, hback⟩

theorem firstToken_of_lexFrom {fuel line : Nat} {blanks rest : List Char} {c : Char}
    {lexemes : List Lexeme} (hc : OpensTable c)
    (hblanks : ∀ b ∈ blanks, Json.isBlank b = true)
    (h : lexFrom fuel line (blanks ++ c :: rest) = .ok lexemes) (adjoins : Bool) :
    ∃ t more, tokensFrom adjoins lexemes = t :: more ∧ OpensNothing t := by
  have hvisible : Json.isBlank c = false := by rcases hc with rfl | rfl <;> rfl
  generalize htext : blanks ++ c :: rest = text at h
  have hlexed := lexedAs_of_lexFrom h
  clear h
  induction hlexed generalizing blanks adjoins with
  | finish => simp at htext
  | @cut line text kind front after others hcut _ ih =>
      subst htext
      cases blanks with
      | nil =>
          refine ⟨⟨kind, String.ofList front, line, adjoins⟩, tokensFrom true others, ?_, ?_⟩
          · rcases cutLexeme_opening hc hcut with rfl | ⟨rfl, _⟩ <;> rfl
          · rcases cutLexeme_opening hc hcut with rfl | ⟨rfl, hfront⟩
            · exact Or.inl rfl
            · change front = [c] at hfront
              subst hfront
              right
              rcases hc with rfl | rfl
              · exact Or.inl rfl
              · exact Or.inr rfl
      | cons b blanks =>
          have hb := hblanks b (by simp)
          rw [List.cons_append] at hcut
          rcases cutLexeme_blank hb hcut with ⟨rfl, hblank⟩
          have hsplit : b :: blanks ++ c :: rest = front ++ after := by
            have happend := cutBlank_append (b :: (blanks ++ c :: rest))
            rw [← hblank] at happend
            exact happend.symm
          have hall : ∀ d ∈ front, Json.isBlank d = true := by
            intro d hd
            refine @isBlank_of_cutBlank (b :: (blanks ++ c :: rest)) d ?_
            rw [← hblank]
            exact hd
          rcases append_after_blanks hvisible hall hsplit with ⟨more, hmore, rfl⟩
          refine ih ?_ false rfl
          intro d hd
          exact hblanks d (by rw [hmore]; simp [hd])

theorem program_of_opensNothing {t : Token} {rest : List Token} (ht : OpensNothing t) :
    ∃ line, program (t :: rest) = .error line := by
  have hname : t.kind ≠ .name := by
    rcases ht with h | h | h
    · simp [h]
    · simp [Token.is] at h
      simp [h.1]
    · simp [Token.is] at h
      simp [h.1]
  have hnot : ∀ text, text ≠ "[" → text ≠ "\x7b" → t.is text = false := by
    intro text hbracket hbrace
    rcases ht with h | h | h
    · simp [Token.is, h]
    · simp [Token.is] at h
      simp [Token.is, h, hbracket.symm]
    · simp [Token.is] at h
      simp [Token.is, h, hbrace.symm]
  have hfinish : t.kind ≠ .finish := by
    rcases ht with h | h | h
    · simp [h]
    · simp [Token.is] at h
      simp [h.1]
    · simp [Token.is] at h
      simp [h.1]
  have hblock : (entry ((t :: rest).length + 1)).block (t :: rest) = .found [] (t :: rest) := by
    refine block_empty hname ?_ (hnot _ (by decide) (by decide)) (hnot _ (by decide) (by decide))
    intro text htext
    refine hnot text ?_ ?_ <;> revert text <;> decide
  have hneed : Parser.need (Parser.kind .finish) (t :: rest) = .failed t.line := by
    simp [Parser.need, kind_absent hfinish, currentLine]
  refine ⟨t.line, ?_⟩
  unfold program
  simp only [run_bind, hblock, hneed]

/-!
## Both
-/

theorem ofBytes_of_ofUtf8 {front rest : List Char} {c : Char} (hc : OpensTable c)
    (hfront : ∀ b ∈ front, Json.isBlank b = true) {bytes : Bytes}
    (h : ofUtf8? bytes = some (front ++ c :: rest)) :
    ∃ more, ofBytes bytes = front ++ c :: more := by
  induction front generalizing bytes with
  | nil =>
      have hsmall : c.toNat < 0x80 := by rcases hc with rfl | rfl <;> decide
      rcases ofUtf8_cons h hsmall with ⟨more, rfl, _⟩
      refine ⟨ofBytes more, ?_⟩
      simp only [ofBytes, List.map_cons, ofNat_byte hsmall, List.nil_append]
  | cons d front ih =>
      have hsmall : d.toNat < 0x80 := by
        rcases isBlank_cases (hfront d (by simp)) with rfl | rfl | rfl | rfl <;> decide
      rcases ofUtf8_cons h hsmall with ⟨bytes, rfl, hrest⟩
      rcases ih (fun b hb => hfront b (by simp [hb])) hrest with ⟨more, hmore⟩
      refine ⟨more, ?_⟩
      simp only [ofBytes] at hmore
      simp only [ofBytes, List.map_cons, ofNat_byte hsmall, hmore, List.cons_append]

theorem ofText_of_script {bytes : Bytes} {chunk : Chunk} (hscript : parseBytes bytes = .ok chunk)
    {text : List Char} (htext : ofUtf8? bytes = some text) (directory : Path) :
    Manifest.ofText? directory text = none := by
  cases hmanifest : Manifest.ofText? directory text with
  | none => rfl
  | some manifest =>
      exfalso
      rcases opens_of_ofText hmanifest with ⟨blanks, c, more, rfl, hc, hblanks⟩
      rcases ofBytes_of_ofUtf8 hc hblanks htext with ⟨rest, hbytes⟩
      have hstart : ∀ d ∈ (blanks ++ c :: rest).head?, d ≠ '\uFEFF' ∧ d ≠ '#' := by
        intro d hd
        cases blanks with
        | nil =>
            have hd := Option.some.inj hd
            rcases hc with rfl | rfl <;> subst hd <;> decide
        | cons b blanks =>
            have hd := Option.some.inj hd
            rcases isBlank_cases (hblanks b (by simp)) with rfl | rfl | rfl | rfl <;>
              subst hd <;> decide
      have hlex : lex (ofBytes bytes) =
          lexFrom (blanks ++ c :: rest).length 1 (blanks ++ c :: rest) := by
        rw [hbytes]
        generalize blanks ++ c :: rest = source at hstart
        cases source with
        | nil => rfl
        | cons d source =>
            rcases hstart d rfl with ⟨hmark, hhash⟩
            simp [lex, dropByteOrderMark, dropInterpreterLine, hmark, hhash]
      unfold parseBytes parse at hscript
      rw [hlex] at hscript
      cases hrun : lexFrom (blanks ++ c :: rest).length 1 (blanks ++ c :: rest) with
      | error line =>
          rw [hrun] at hscript
          cases hscript
      | ok lexemes =>
          rcases firstToken_of_lexFrom hc hblanks hrun false with
            ⟨t, more', htokens, ht⟩
          rcases @program_of_opensNothing t more' ht with ⟨line, hprogram⟩
          rw [hrun] at hscript
          simp [bodyOf, tokens, htokens, hprogram] at hscript

end LuaBundle
