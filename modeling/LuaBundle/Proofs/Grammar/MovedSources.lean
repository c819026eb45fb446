import LuaBundle.Proofs.Grammar.FaultOrder
import LuaBundle.Proofs.Grammar.MovedTokens

/-!
# Moved sources

A source whose tokens stand on other lines is the same chunk but for lines, or neither is a
chunk.  This is so behind a line that is a comment.
-/

namespace LuaBundle
namespace Lua

open Text

/-!
## Faults
-/

def Fault.relined (move : Nat → Nat) (fault : Fault) : Fault :=
  { fault with line := move fault.line }

theorem fault_relined (encoding : Encoding) (s : Standing) (move : Nat → Nat) (t : Token) :
    (t.relined move).fault? encoding s = (t.fault? encoding s).map (Fault.relined move) := by
  rcases t with ⟨kind, text, line, adjoins⟩
  cases kind with
  | string =>
      simp only [Token.fault?, Token.relined]
      cases literalBytes encoding text.toList <;> rfl
  | number =>
      simp only [Token.fault?, Token.relined]
      cases numeralValue? text.toList <;> rfl
  | name =>
      by_cases hbad : s.declaring = .attrib ∧ text ∉ knownAttributes <;>
        simp [Token.fault?, Token.relined, Fault.relined, hbad]
  | reserved =>
      by_cases hbad : text = "..." ∧ s.declaring ≠ .parameters ∧ takesRestIn s.blocks = false <;>
        simp [Token.fault?, Token.relined, Fault.relined, hbad]
  | _ => rfl

theorem declaring_relined (move : Nat → Nat) (d : Declaring) (t : Token) :
    d.step (t.relined move) = d.step t := by
  cases d <;> rfl

theorem standing_relined (move : Nat → Nat) (s : Standing) (t : Token) :
    s.step (t.relined move) = s.step t := by
  rw [Standing.step, declaring_relined]
  rfl

theorem faultsFrom_relined (encoding : Encoding) (move : Nat → Nat) (s : Standing)
    (ts : List Token) :
    faultsFrom encoding s (ts.map (Token.relined move)) =
      (faultsFrom encoding s ts).map (Fault.relined move) := by
  induction ts generalizing s with
  | nil => rfl
  | cons t rest ih =>
      rw [List.map_cons, faultsFrom, faultsFrom, fault_relined, standing_relined, ih,
        List.map_append]
      cases t.fault? encoding s <;> rfl

/-!
## Whole sources
-/

/-- A source and one with the same tokens on other lines: both are chunks, and the body of the
second one is that of the first with its lines moved, or neither is a chunk. -/
def MovesTo (encoding : Encoding) (move : Nat → Nat) (source moved : List Char) : Prop :=
  (∀ c, parse encoding source = .ok c →
    ∃ c', parse encoding moved = .ok c' ∧ c'.body = relinedBlock move c.body) ∧
  ∀ e, parse encoding source = .error e → ∃ e', parse encoding moved = .error e'

theorem movesTo_of_errors {encoding : Encoding} {move : Nat → Nat} {source moved : List Char}
    {line line' : Nat} (hlex : lex source = .error line) (hlex' : lex moved = .error line') :
    MovesTo encoding move source moved := by
  constructor
  · intro c hc
    simp [parse, hlex] at hc
  · intro e _
    exact ⟨.malformed line', by simp [parse, hlex']⟩

theorem movesTo_of_tokens {encoding : Encoding} {move : Nat → Nat} {source moved : List Char}
    {lexemes lexemes' : List Lexeme} (hlex : lex source = .ok lexemes)
    (hlex' : lex moved = .ok lexemes')
    (htokens : tokens lexemes' = (tokens lexemes).map (Token.relined move)) :
    MovesTo encoding move source moved := by
  have hprogram := program_relined move (tokens lexemes)
  rw [← htokens] at hprogram
  cases hbody : program (tokens lexemes) with
  | error line =>
      rcases hprogram.2 line hbody with ⟨line', hbody'⟩
      constructor
      · intro c hc
        simp [parse, hlex, bodyOf, hbody] at hc
      · intro e _
        exact ⟨.malformed line', by simp [parse, hlex', bodyOf, hbody']⟩
  | ok body =>
      have hbody' := hprogram.1 body hbody
      have hfaults : blockFaults encoding true (relinedBlock move body) =
          (blockFaults encoding true body).map (Fault.relined move) := by
        rw [← program_faults hlex hbody, ← program_faults hlex' hbody', htokens,
          faultsFrom_relined]
      cases hfound : blockFaults encoding true body with
      | nil =>
          rw [hfound, List.map_nil] at hfaults
          rcases parse_of_program hlex hbody hfound with ⟨c, hc, hcbody⟩
          rcases parse_of_program hlex' hbody' hfaults with ⟨c', hc', hcbody'⟩
          constructor
          · intro d hd
            cases hc.symm.trans hd
            exact ⟨c', hc', by rw [hcbody', hcbody, block_resolve_relined]⟩
          · intro e he
            cases hc.symm.trans he
      | cons fault more =>
          rw [hfound, List.map_cons] at hfaults
          constructor
          · intro c hc
            simp [parse, hlex, bodyOf, hbody, hfound] at hc
          · intro e _
            exact ⟨.faulty (fault.relined move), by
              simp [parse, hlex', bodyOf, hbody', hfaults]⟩

def Lexeme.relined (move : Nat → Nat) (l : Lexeme) : Lexeme :=
  { l with line := move l.line }

theorem tokensFrom_relined (move : Nat → Nat) (adjoins : Bool) (lexemes : List Lexeme) :
    tokensFrom adjoins (lexemes.map (Lexeme.relined move)) =
      (tokensFrom adjoins lexemes).map (Token.relined move) := by
  induction lexemes generalizing adjoins with
  | nil => rfl
  | cons l rest ih =>
      have hkind : (l.relined move).kind = l.kind := rfl
      rw [List.map_cons, tokensFrom, tokensFrom, hkind, ih, ih]
      split <;> rfl

theorem lexFrom_moved (down : Nat) {fuel fuel' line : Nat} {text : List Char}
    (hfuel : text.length ≤ fuel) (hfuel' : text.length ≤ fuel') :
    lexFrom fuel' (line + down) text =
      ((lexFrom fuel line text).map (List.map (Lexeme.relined (· + down)))).mapError
        (· + down) := by
  induction fuel generalizing fuel' line text with
  | zero =>
      cases text with
      | nil => cases fuel' <;> rfl
      | cons c rest => simp at hfuel
  | succ fuel ih =>
      cases text with
      | nil => cases fuel' <;> rfl
      | cons c rest =>
          cases fuel' with
          | zero => simp at hfuel'
          | succ fuel' =>
              cases hcut : cutLexeme (c :: rest) with
              | none => simp [lexFrom, hcut, Except.map, Except.mapError]
              | some found =>
                  rcases found with ⟨kind, front, after⟩
                  have hlength : front.length ≠ 0 := by simpa using cutLexeme_ne_nil hcut
                  rw [cutLexeme_append hcut, List.length_append] at hfuel hfuel'
                  have hmore := @ih fuel' (line + lineFeeds front) after (by omega) (by omega)
                  rw [lexFrom_cut hcut, lexFrom_cut hcut, Nat.add_right_comm, hmore]
                  cases lexFrom fuel (line + lineFeeds front) after <;> rfl

/-!
## A comment in front
-/

theorem cutLexeme_note {note rest : List Char} (hnote : '\n' ∉ note)
    (hbracket : note.head? ≠ some '[') :
    cutLexeme ('-' :: '-' :: (note ++ '\n' :: rest)) =
      some (.lineComment, ('-' :: '-' :: note, '\n' :: rest)) := by
  have hline : cutWhile (· != '\n') (note ++ '\n' :: rest) = (note, '\n' :: rest) := by
    apply cutWhile_of_all
    · intro c hc
      exact bne_iff_ne.mpr fun heq => hnote (heq ▸ hc)
    · exact startsOutside_cons.mpr rfl
  have hcomment : cutComment (note ++ '\n' :: rest) =
      some (.lineComment, ('-' :: '-' :: note, '\n' :: rest)) := by
    unfold cutComment
    rw [hline]
    split
    · rename_i heq
      cases note with
      | nil => cases heq
      | cons c more =>
          cases heq
          exact absurd rfl hbracket
    · rfl
  simp [cutLexeme, cutBlank_of_visible (show isPad '-' = false by decide), hcomment]

/-- Behind a line that is a comment a source is cut into the lexemes that it is cut into alone. -/
theorem lex_note {note source : List Char} (hnote : '\n' ∉ note) (hbracket : note.head? ≠ some '[')
    (hsource : ∀ c ∈ source.head?, c ≠ '\uFEFF' ∧ c ≠ '#') :
    lex ('-' :: '-' :: (note ++ '\n' :: source)) =
      ((lex source).map fun lexemes =>
        ⟨.lineComment, String.ofList ('-' :: '-' :: note), 1⟩ :: ⟨.blank, "\n", 1⟩ ::
          lexemes.map (Lexeme.relined (· + 1))).mapError (· + 1) := by
  have hstarts : ∀ c ∈ ('-' :: '-' :: (note ++ '\n' :: source)).head?,
      c ≠ '\uFEFF' ∧ c ≠ '#' := by
    rintro c hc
    cases hc
    decide
  have hlength : ('-' :: '-' :: (note ++ '\n' :: source)).length =
      note.length + 1 + source.length + 1 + 1 := by
    simp
    omega
  have hnone : lineFeeds ('-' :: '-' :: note) = 0 := by
    simpa [lineFeeds, List.count_eq_zero] using hnote
  have hone : lineFeeds ['\n'] = 1 := rfl
  have hmoved := @lexFrom_moved 1 source.length (note.length + 1 + source.length) 1 source
    (Nat.le_refl _) (Nat.le_add_left _ _)
  rw [← lex_of_starts hsource] at hmoved
  rw [lex_of_starts hstarts, hlength, lexFrom_cut (cutLexeme_note hnote hbracket), hnone,
    Nat.add_zero, lexFrom_cut (cutLexeme_feed source), hone, hmoved]
  cases lex source <;> rfl

theorem movesTo_of_note {encoding : Encoding} {note source : List Char} (hnote : '\n' ∉ note)
    (hbracket : note.head? ≠ some '[')
    (hsource : ∀ c ∈ source.head?, c ≠ '\uFEFF' ∧ c ≠ '#') :
    MovesTo encoding (· + 1) source ('-' :: '-' :: (note ++ '\n' :: source)) := by
  have hmoved := lex_note hnote hbracket hsource
  cases hlex : lex source with
  | error line =>
      rw [hlex] at hmoved
      exact movesTo_of_errors hlex hmoved
  | ok lexemes =>
      rw [hlex] at hmoved
      exact movesTo_of_tokens hlex hmoved (tokensFrom_relined (· + 1) false lexemes)

end Lua
end LuaBundle
