import LuaBundle.Lua.Lexeme
import LuaBundle.Proofs.Literal.Quoted
import LuaBundle.Proofs.Text.Bytes

/-!
# Long brackets

In Lua 5.4 a literal in long brackets has no escapes.  A line break directly after the opening
bracket is not part of it, and every other line break, however it is spelled, stands for one
line feed.  The bytes computed for a literal keep the spelling of these other line breaks, so
they are what Lua says for just the literals that have no carriage return in them.
-/

namespace LuaBundle
namespace Lua

open Text

/-!
## Meaning

A line break directly after the opening bracket is no part of what is denoted.  The characters
behind it stand for their own bytes.
-/

def openingBracket (level : Nat) : List Char :=
  '[' :: (List.replicate level '=' ++ ['['])

def inBrackets (level : Nat) (contents : List Char) : List Char :=
  openingBracket level ++ (contents ++ closingBracket level)

/-- What contents are without the line break that they start with. -/
inductive Opened : List Char → List Char → Prop where
  | lineBreak {text rest : List Char} : LineBreak text rest → Opened (text ++ rest) rest
  | none {contents : List Char} : ¬StartsIn IsBreak contents → Opened contents contents

/-- The bytes that a text denotes without escapes: a line feed for every line break. -/
inductive Verbatim (encoding : Encoding) : List Char → Bytes → Prop where
  | empty : Verbatim encoding [] []
  | plain {c : Char} {rest : List Char} {bytes : Bytes} :
      ¬IsBreak c → Verbatim encoding rest bytes →
        Verbatim encoding (c :: rest) (encoding.charBytes c ++ bytes)
  | lineBreak {text rest : List Char} {bytes : Bytes} :
      LineBreak text rest → Verbatim encoding rest bytes →
        Verbatim encoding (text ++ rest) (0x0A :: bytes)

/-!
## The brackets
-/

theorem bracketLevel_inBrackets (level : Nat) (contents : List Char) :
    bracketLevel (inBrackets level contents) = level := by
  have hsigns : ∀ c ∈ List.replicate level '=', (c == '=') = true := by
    intro c hc
    rw [List.eq_of_mem_replicate hc]
    rfl
  have hone : Char.utf8Size '[' = 1 := rfl
  rw [inBrackets, openingBracket, List.cons_append, bracketLevel, if_pos hone, List.append_assoc,
    List.takeWhile_append_of_pos hsigns]
  change (List.replicate level '=' ++ []).length = level
  rw [List.append_nil, List.length_replicate]

theorem byteLength_signs {c : Char} (hc : c.utf8Size = 1) (level : Nat) :
    byteLength (c :: (List.replicate level '=' ++ [c])) = level + 2 := by
  rw [byteLength_eq_length]
  · rw [List.length_cons, List.length_append, List.length_replicate, List.length_singleton]
  · intro d hd
    rcases List.mem_cons.mp hd with rfl | hd
    · exact hc
    rcases List.mem_append.mp hd with hd | hd
    · rw [List.eq_of_mem_replicate hd]
      rfl
    · rw [List.mem_singleton.mp hd]
      exact hc

theorem longBracketContents_eq (level : Nat) (contents : List Char) :
    longBracketContents (inBrackets level contents) = contents := by
  have hopening : byteLength (openingBracket level) = level + 2 := byteLength_signs rfl level
  have hclosing : byteLength (closingBracket level) = level + 2 := byteLength_signs rfl level
  have hslice := byteSlice?_between (openingBracket level) contents (closingBracket level)
  rw [hopening] at hslice
  have hstop : byteLength (inBrackets level contents) - (level + 2) =
      level + 2 + byteLength contents := by
    rw [inBrackets, byteLength_append, byteLength_append, hopening, hclosing]
    omega
  rw [longBracketContents, bracketLevel_inBrackets]
  simp only [hstop]
  rw [inBrackets, hslice, Option.getD_some]

theorem literalBytes_inBrackets (encoding : Encoding) (level : Nat) (contents : List Char) :
    literalBytes encoding (inBrackets level contents) =
      .ok (encoding.toBytes (dropLineBreak contents)) := by
  change Except.ok (encoding.toBytes (dropLineBreak (longBracketContents _))) = _
  rw [longBracketContents_eq]

/-!
## Line breaks
-/

theorem dropLineBreak_of_opened {contents body : List Char} (h : Opened contents body) :
    dropLineBreak contents = body := by
  cases h with
  | lineBreak hbreak =>
      cases hbreak with
      | pair hpair =>
          simp only [lineBreakPairs, List.mem_cons, Prod.mk.injEq, List.not_mem_nil,
            or_false] at hpair
          rcases hpair with ⟨rfl, rfl⟩ | ⟨rfl, rfl⟩ <;> rfl
      | @single c rest hc hrest =>
          cases body with
          | nil => rcases hc with rfl | rfl <;> rfl
          | cons next rest =>
              rcases hc with rfl | rfl
              · have hnext : next ≠ '\r' := by simpa [lineBreakPairs, StartsIn] using hrest
                simp [dropLineBreak, hnext]
              · have hnext : next ≠ '\n' := by simpa [lineBreakPairs, StartsIn] using hrest
                simp [dropLineBreak, hnext]
  | none hplain =>
      cases contents with
      | nil => rfl
      | cons c rest =>
          obtain ⟨hfeed, hreturn⟩ := not_or.mp hplain
          unfold dropLineBreak
          split <;> simp_all

theorem exists_opened (contents : List Char) : ∃ body, Opened contents body := by
  by_cases hstart : StartsIn IsBreak contents
  · match contents, hstart with
    | c :: rest, hc =>
        obtain ⟨text, after, hsplit, hbreak⟩ := exists_lineBreak hc rest
        rw [hsplit]
        exact ⟨after, .lineBreak hbreak⟩
  · exact ⟨contents, .none hstart⟩

theorem LineBreak.ne_nil {text rest : List Char} (h : LineBreak text rest) : text ≠ [] := by
  cases h <;> exact List.cons_ne_nil _ _

theorem exists_verbatim (encoding : Encoding) (text : List Char) :
    ∃ bytes, Verbatim encoding text bytes := by
  -- A line break may be two characters long, so the rest is shorter but not always the tail.
  induction hn : text.length using Nat.strong_induction_on generalizing text with
  | _ n ih =>
      cases text with
      | nil => exact ⟨[], .empty⟩
      | cons c rest =>
          by_cases hc : IsBreak c
          · obtain ⟨front, after, hsplit, hbreak⟩ := exists_lineBreak hc rest
            have hpositive := List.length_pos_iff.mpr hbreak.ne_nil
            rw [hsplit, List.length_append] at hn
            obtain ⟨bytes, hbytes⟩ := ih after.length (by omega) after rfl
            rw [hsplit]
            exact ⟨_, .lineBreak hbreak hbytes⟩
          · rw [List.length_cons] at hn
            obtain ⟨bytes, hbytes⟩ := ih rest.length (by omega) rest rfl
            exact ⟨_, .plain hc hbytes⟩

theorem Verbatim.no_return {encoding : Encoding} {text : List Char} {bytes : Bytes}
    (h : Verbatim encoding text bytes) : (0x0D : UInt8) ∉ bytes := by
  induction h with
  | empty => exact List.not_mem_nil
  | @plain c rest bytes hc _ ih =>
      intro hmem
      rcases List.mem_append.mp hmem with hmem | hmem
      · have hnat : c.toNat = Char.toNat '\r' := toNat_of_mem_charBytes (by decide) hmem
        exact hc (Or.inr (Char.toNat_inj.mp hnat))
      · exact ih hmem
  | lineBreak _ _ ih =>
      intro hmem
      rcases List.mem_cons.mp hmem with heq | hmem
      · exact absurd heq (by decide)
      · exact ih hmem

theorem Verbatim.eq_toBytes {encoding : Encoding} {text : List Char} {bytes : Bytes}
    (h : Verbatim encoding text bytes) (hreturn : '\r' ∉ text) :
    bytes = encoding.toBytes text := by
  induction h with
  | empty => rfl
  | @plain c rest bytes _ _ ih =>
      rw [ih fun hmem => hreturn (List.mem_cons_of_mem _ hmem)]
      rfl
  | @lineBreak text rest bytes hbreak _ ih =>
      have hrest := ih fun hmem => hreturn (List.mem_append_right _ hmem)
      have htext : text = ['\n'] := by
        cases hbreak with
        | pair hpair =>
            simp only [lineBreakPairs, List.mem_cons, Prod.mk.injEq, List.not_mem_nil,
              or_false] at hpair
            exfalso
            rcases hpair with ⟨rfl, rfl⟩ | ⟨rfl, rfl⟩ <;> simp at hreturn
        | single hc _ =>
            rcases hc with rfl | rfl
            · rfl
            · exact absurd List.mem_cons_self hreturn
      subst htext
      rw [hrest]
      change _ = encoding.charBytes '\n' ++ encoding.toBytes rest
      rw [charBytes_ascii encoding (by decide)]
      rfl

/-!
## Literals
-/

/-- A literal in long brackets denotes its contents without the line break that they start
with, each character as its bytes.  These are the bytes that Lua says just when there is no
carriage return among the characters. -/
theorem long_literal (encoding : Encoding) (level : Nat) (contents : List Char) :
    ∃ body, Opened contents body ∧ (∃ bytes, Verbatim encoding body bytes) ∧
      literalBytes encoding (inBrackets level contents) = .ok (encoding.toBytes body) ∧
      ∀ bytes, Verbatim encoding body bytes →
        (literalBytes encoding (inBrackets level contents) = .ok bytes ↔ '\r' ∉ body) := by
  obtain ⟨body, hopened⟩ := exists_opened contents
  have hvalue : literalBytes encoding (inBrackets level contents) =
      .ok (encoding.toBytes body) := by
    rw [literalBytes_inBrackets, dropLineBreak_of_opened hopened]
  refine ⟨body, hopened, exists_verbatim encoding body, hvalue, ?_⟩
  intro bytes hbytes
  constructor
  · intro heq hreturn
    rw [hvalue] at heq
    apply hbytes.no_return
    rw [← Except.ok.inj heq]
    exact (mem_toBytes_ascii (c := '\r') (by decide)).mpr hreturn
  · intro hreturn
    rw [hvalue, hbytes.eq_toBytes hreturn]

def brokenContents : List Char :=
  ['\r', '\n', 'é', ']', ']', '\n', '\n', '=']

def brokenBody : List Char :=
  ['é', ']', ']', '\n', '\n', '=']

theorem long_literal_broken :
    Opened brokenContents brokenBody ∧
      Verbatim .utf8 brokenBody [0xC3, 0xA9, 0x5D, 0x5D, 0x0A, 0x0A, 0x3D] ∧
      '\r' ∉ brokenBody ∧
      literalBytes .utf8 (inBrackets 1 brokenContents) =
        .ok [0xC3, 0xA9, 0x5D, 0x5D, 0x0A, 0x0A, 0x3D] := by
  obtain ⟨body, hopened, _, _, hiff⟩ := long_literal .utf8 1 brokenContents
  have hbody : brokenBody = body := dropLineBreak_of_opened hopened
  subst hbody
  have hfirst : LineBreak ['\n'] ['\n', '='] :=
    .single (Or.inl rfl) (show ('\n', '\n') ∉ lineBreakPairs by decide)
  have hsecond : LineBreak ['\n'] ['='] :=
    .single (Or.inl rfl) (show ('\n', '=') ∉ lineBreakPairs by decide)
  have hbreaks : Verbatim .utf8 ['\n', '\n', '='] [0x0A, 0x0A, 0x3D] :=
    .lineBreak hfirst (.lineBreak hsecond (.plain (c := '=') (by decide) .empty))
  have hverbatim : Verbatim .utf8 brokenBody [0xC3, 0xA9, 0x5D, 0x5D, 0x0A, 0x0A, 0x3D] := by
    apply Verbatim.plain (c := 'é') (by decide)
    apply Verbatim.plain (c := ']') (by decide)
    exact Verbatim.plain (c := ']') (by decide) hbreaks
  have hreturn : '\r' ∉ brokenBody := by decide
  exact ⟨hopened, hverbatim, hreturn, (hiff _ hverbatim).mpr hreturn⟩

def returnContents : List Char :=
  ['a', '\r', '\n', 'b']

/-- The carriage return of a line break inside a literal is kept. -/
theorem long_literal_return :
    ¬closingBracket 0 <:+: returnContents ∧ Opened returnContents returnContents ∧
      Verbatim .utf8 returnContents [0x61, 0x0A, 0x62] ∧
      literalBytes .utf8 (inBrackets 0 returnContents) = .ok [0x61, 0x0D, 0x0A, 0x62] ∧
      literalBytes .utf8 (inBrackets 0 returnContents) ≠ .ok [0x61, 0x0A, 0x62] := by
  have hplain : ¬StartsIn IsBreak returnContents := show ¬IsBreak 'a' by decide
  have hbreak : LineBreak ['\r', '\n'] ['b'] := .pair (by decide)
  have hverbatim : Verbatim .utf8 returnContents [0x61, 0x0A, 0x62] := by
    apply Verbatim.plain (c := 'a') (by decide)
    exact .lineBreak hbreak (.plain (c := 'b') (by decide) .empty)
  exact ⟨by decide, .none hplain, hverbatim, by decide +kernel, by decide +kernel⟩

end Lua
end LuaBundle
