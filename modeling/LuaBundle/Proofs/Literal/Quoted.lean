import LuaBundle.Proofs.Literal.Escapes
import LuaBundle.Proofs.Text.Slices

/-!
# Quoted literals

The contents of a quoted literal are a row of characters and escapes.  They denote the bytes
of these pieces one after the other, or are refused for the first escape without a meaning.
-/

namespace LuaBundle
namespace Lua

open Text

/-- The bytes that the contents of a quoted literal denote. -/
inductive Denotes (encoding : Encoding) : List Char → Bytes → Prop where
  | empty : Denotes encoding [] []
  | plain {c : Char} {rest : List Char} {bytes : Bytes} :
      c ≠ '\\' → Denotes encoding rest bytes →
        Denotes encoding (c :: rest) (encoding.charBytes c ++ bytes)
  | escape {text rest : List Char} {piece bytes : Bytes} :
      Escape text rest piece → Denotes encoding rest bytes →
        Denotes encoding ('\\' :: (text ++ rest)) (piece ++ bytes)

/-- Why the contents of a quoted literal denote nothing: what their first bad escape lacks. -/
inductive Refused : List Char → BadEscape → Prop where
  | here {text : List Char} {e : BadEscape} : Rejected text e → Refused ('\\' :: text) e
  | plain {c : Char} {rest : List Char} {e : BadEscape} :
      c ≠ '\\' → Refused rest e → Refused (c :: rest) e
  | escape {text rest : List Char} {piece : Bytes} {e : BadEscape} :
      Escape text rest piece → Refused rest e → Refused ('\\' :: (text ++ rest)) e

/-!
## Reading contents
-/

section Contents

variable {encoding : Encoding} {text rest : List Char} {bytes piece : Bytes} {e : BadEscape}
  {fuel : Nat}

theorem quotedBytesIn_plain {c : Char} (hc : c ≠ '\\') (hfuel : 0 < fuel) :
    quotedBytesIn encoding fuel (c :: rest) =
      (quotedBytesIn encoding (fuel - 1) rest).map (encoding.charBytes c ++ ·) := by
  rcases Nat.exists_eq_add_one.mpr hfuel with ⟨fuel, rfl⟩
  rw [quotedBytesIn]
  · rfl
  · exact hc

theorem quotedBytesIn_escape (h : Escape text rest piece) (hfuel : 0 < fuel) :
    quotedBytesIn encoding fuel ('\\' :: (text ++ rest)) =
      (quotedBytesIn encoding (fuel - 1) rest).map (piece ++ ·) := by
  rcases Nat.exists_eq_add_one.mpr hfuel with ⟨fuel, rfl⟩
  simp only [quotedBytesIn, escape_of_escape h]
  rfl

theorem quotedBytesIn_rejected (h : Rejected text e) (hfuel : 0 < fuel) :
    quotedBytesIn encoding fuel ('\\' :: text) = .error e := by
  rcases Nat.exists_eq_add_one.mpr hfuel with ⟨fuel, rfl⟩
  simp only [quotedBytesIn, escape_of_rejected h]
  rfl

theorem Denotes.read (h : Denotes encoding text bytes) (hfuel : text.length ≤ fuel) :
    quotedBytesIn encoding fuel text = .ok bytes := by
  induction h generalizing fuel with
  | empty => cases fuel <;> rfl
  | plain hc _ ih =>
      rw [List.length_cons] at hfuel
      rw [quotedBytesIn_plain hc (by omega), ih (by omega)]
      rfl
  | escape hpiece _ ih =>
      rw [List.length_cons, List.length_append] at hfuel
      rw [quotedBytesIn_escape hpiece (by omega), ih (by omega)]
      rfl

theorem Refused.read (h : Refused text e) (hfuel : text.length ≤ fuel) :
    quotedBytesIn encoding fuel text = .error e := by
  induction h generalizing fuel with
  | here h => exact quotedBytesIn_rejected h (Nat.lt_of_lt_of_le (Nat.succ_pos _) hfuel)
  | plain hc _ ih =>
      rw [List.length_cons] at hfuel
      rw [quotedBytesIn_plain hc (by omega), ih (by omega)]
      rfl
  | escape hpiece _ ih =>
      rw [List.length_cons, List.length_append] at hfuel
      rw [quotedBytesIn_escape hpiece (by omega), ih (by omega)]
      rfl

end Contents

theorem denotes_or_refused (encoding : Encoding) (text : List Char) :
    (∃ bytes, Denotes encoding text bytes) ∨ ∃ e, Refused text e := by
  -- What follows an escape is a shorter text, but not the tail of this one.
  induction hn : text.length using Nat.strong_induction_on generalizing text with
  | _ n ih =>
      cases text with
      | nil => exact Or.inl ⟨_, .empty⟩
      | cons c rest =>
          by_cases hc : c = '\\'
          · subst hc
            rcases escape_or_rejected rest with ⟨front, after, piece, rfl, hpiece⟩ | ⟨e, he⟩
            · rw [List.length_cons, List.length_append] at hn
              rcases ih after.length (by omega) after rfl with ⟨bytes, h⟩ | ⟨e, h⟩
              · exact Or.inl ⟨_, .escape hpiece h⟩
              · exact Or.inr ⟨_, .escape hpiece h⟩
            · exact Or.inr ⟨_, .here he⟩
          · rw [List.length_cons] at hn
            rcases ih rest.length (by omega) rest rfl with ⟨bytes, h⟩ | ⟨e, h⟩
            · exact Or.inl ⟨_, .plain hc h⟩
            · exact Or.inr ⟨_, .plain hc h⟩

theorem quotedBytes_eq_ok {encoding : Encoding} {contents : List Char} {bytes : Bytes} :
    quotedBytes encoding contents = .ok bytes ↔ Denotes encoding contents bytes := by
  constructor
  · intro h
    rcases denotes_or_refused encoding contents with ⟨other, hother⟩ | ⟨e, he⟩
    · cases h.symm.trans (hother.read (Nat.le_refl _))
      exact hother
    · cases h.symm.trans (he.read (Nat.le_refl _))
  · intro h
    exact h.read (Nat.le_refl _)

theorem quotedBytes_eq_error {encoding : Encoding} {contents : List Char} {e : BadEscape} :
    quotedBytes encoding contents = .error e ↔ Refused contents e := by
  constructor
  · intro h
    rcases denotes_or_refused encoding contents with ⟨bytes, hbytes⟩ | ⟨other, hother⟩
    · cases h.symm.trans (hbytes.read (Nat.le_refl _))
    · cases h.symm.trans (hother.read (Nat.le_refl _))
      exact hother
  · intro h
    exact h.read (Nat.le_refl _)

/-!
## The quotes
-/

theorem quotedContents_eq {quote : Char} (hquote : quote.utf8Size = 1) (contents : List Char) :
    quotedContents (quote :: (contents ++ [quote])) = contents := by
  have hone : byteLength [quote] = 1 := congrArg (· + 0) hquote
  have hslice := byteSlice?_between [quote] contents [quote]
  rw [hone] at hslice
  have hlength : byteLength (quote :: (contents ++ [quote])) - 1 = 1 + byteLength contents := by
    rw [← List.singleton_append, byteLength_append, byteLength_append, hone]
    omega
  rw [quotedContents, hlength, ← List.singleton_append, hslice, Option.getD_some]

theorem literalBytes_quoted (encoding : Encoding) (contents : List Char) {quote : Char}
    (hquote : quote = '"' ∨ quote = '\'') :
    literalBytes encoding (quote :: (contents ++ [quote])) = quotedBytes encoding contents := by
  rcases hquote with rfl | rfl
  · exact congrArg (quotedBytes encoding) (quotedContents_eq rfl contents)
  · exact congrArg (quotedBytes encoding) (quotedContents_eq rfl contents)

/-- A quoted literal denotes what its contents denote, and is refused when they are. -/
theorem quoted_literal (encoding : Encoding) (contents : List Char) {quote : Char}
    (hquote : quote = '"' ∨ quote = '\'') :
    (∀ e, literalBytes encoding (quote :: (contents ++ [quote])) = .error e ↔
      Refused contents e) ∧
    ∀ bytes, literalBytes encoding (quote :: (contents ++ [quote])) = .ok bytes ↔
      Denotes encoding contents bytes := by
  rw [literalBytes_quoted encoding contents hquote]
  exact ⟨fun e => quotedBytes_eq_error, fun bytes => quotedBytes_eq_ok⟩

/-- Contents with an escape of each kind, and a line break of two characters. -/
def mixedContents : List Char :=
  "A\\n\\0657\\x42\\z \t\n\\u\x7b20AC\x7d\\\n\r'".toList

/-- Contents whose code point is read up to the digit that takes it to 2^31. -/
def largeContents : List Char :=
  "\\t\\u\x7b80000000\x7d".toList

theorem quoted_literal_mixed :
    literalBytes .bytes ('"' :: (mixedContents ++ ['"'])) =
        .ok [0x41, 0x0A, 0x41, 0x37, 0x42, 0xE2, 0x82, 0xAC, 0x0A, 0x27] ∧
      Denotes .bytes mixedContents [0x41, 0x0A, 0x41, 0x37, 0x42, 0xE2, 0x82, 0xAC, 0x0A, 0x27] ∧
      literalBytes .utf8 ('\'' :: (largeContents ++ ['\''])) = .error (.tooLarge 0x8000000) ∧
      Refused largeContents (.tooLarge 0x8000000) := by
  have hmixed := quoted_literal .bytes mixedContents (Or.inl rfl)
  have hlarge := quoted_literal .utf8 largeContents (Or.inr rfl)
  have hok : literalBytes .bytes ('"' :: (mixedContents ++ ['"'])) =
      .ok [0x41, 0x0A, 0x41, 0x37, 0x42, 0xE2, 0x82, 0xAC, 0x0A, 0x27] := by
    decide +kernel
  have herror : literalBytes .utf8 ('\'' :: (largeContents ++ ['\''])) =
      .error (.tooLarge 0x8000000) := by
    decide +kernel
  exact ⟨hok, (hmixed.2 _).mp hok, herror, (hlarge.1 _).mp herror⟩

end Lua
end LuaBundle
