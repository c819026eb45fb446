import LuaBundle.Proofs.Literal.Numerals
import Mathlib.Tactic.IntervalCases
import Mathlib.Tactic.Tauto

/-!
# Escapes

What Lua 5.4 lets an escape stand for, and which texts after a backslash it rejects.  How far
an escape reaches depends on what follows it: digits and blanks are taken for as long as they
stand there, and two different line break characters count as one line break.
-/

namespace LuaBundle
namespace Lua

open Text

/-!
## Meaning

What the manual says of escapes, told without a reader.
-/

def letterEscapes : List (Char × UInt8) :=
  [('n', 0x0A), ('t', 0x09), ('r', 0x0D), ('a', 0x07), ('b', 0x08), ('f', 0x0C), ('v', 0x0B),
    ('\\', 0x5C), ('"', 0x22), ('\'', 0x27)]

def escapeStarts : List Char :=
  letterEscapes.map Prod.fst ++ "\n\rzxu0123456789".toList

def escapeBlanks : List Char :=
  [' ', '\t', '\n', '\x0b', '\x0c', '\r']

def lineBreakPairs : List (Char × Char) :=
  [('\n', '\r'), ('\r', '\n')]

def IsBreak (c : Char) : Prop :=
  c = '\n' ∨ c = '\r'

instance (c : Char) : Decidable (IsBreak c) :=
  inferInstanceAs (Decidable (_ ∨ _))

/-- A line break where `rest` follows it: two different characters count as one. -/
inductive LineBreak : List Char → List Char → Prop where
  | pair {first second : Char} {rest : List Char} :
      (first, second) ∈ lineBreakPairs → LineBreak [first, second] rest
  | single {c : Char} {rest : List Char} :
      IsBreak c → ¬StartsIn (fun next => (c, next) ∈ lineBreakPairs) rest → LineBreak [c] rest

/-- The bytes that the text of an escape, without its backslash, stands for where `rest`
follows it. -/
inductive Escape : List Char → List Char → Bytes → Prop where
  | letter {c : Char} {byte : UInt8} {rest : List Char} :
      (c, byte) ∈ letterEscapes → Escape [c] rest [byte]
  | breakPair {first second : Char} {rest : List Char} :
      (first, second) ∈ lineBreakPairs → Escape [first, second] rest [0x0A]
  | lineBreak {c : Char} {rest : List Char} :
      c = '\n' ∨ c = '\r' → ¬StartsIn (fun next => (c, next) ∈ lineBreakPairs) rest →
        Escape [c] rest [0x0A]
  | skip {blanks rest : List Char} :
      (∀ c ∈ blanks, c ∈ escapeBlanks) → ¬StartsIn (· ∈ escapeBlanks) rest →
        Escape ('z' :: blanks) rest []
  | hexadecimal {high low : Char} {value : Nat} {rest : List Char} :
      Positional 16 [high, low] value → Escape ['x', high, low] rest [value.toUInt8]
  | decimal {digits rest : List Char} {value : Nat} :
      DecimalRun digits rest value → value < 256 → Escape digits rest [value.toUInt8]
  | codePoint {digits rest : List Char} {value : Nat} :
      Positional 16 digits value → digits ≠ [] → value < 2 ^ 31 →
        Escape ('u' :: '\x7b' :: (digits ++ ['\x7d'])) rest (utf8Sequence value)

/-- The texts after a backslash that start with no escape, and why. -/
inductive Rejected : List Char → BadEscape → Prop where
  | unfinished : Rejected [] .unfinished
  | unknown {c : Char} {rest : List Char} : c ∉ escapeStarts → Rejected (c :: rest) (.unknown c)
  | hexDigits {rest : List Char} :
      (∀ high low after, rest = high :: low :: after → ¬(IsDigit 16 high ∧ IsDigit 16 low)) →
        Rejected ('x' :: rest) .hexDigits
  | decimal {digits rest : List Char} {value : Nat} :
      DecimalRun digits rest value → 256 ≤ value → Rejected (digits ++ rest) (.decimal value)
  | noBrace {rest : List Char} : ¬StartsIn (· = '\x7b') rest → Rejected ('u' :: rest) .noBrace
  | codePoint {digits rest : List Char} {value : Nat} :
      Positional 16 digits value → value < 2 ^ 31 → ¬StartsIn (IsDigit 16) rest →
        (StartsIn (· = '\x7d') rest → digits = []) →
          Rejected ('u' :: '\x7b' :: (digits ++ rest)) .codePoint
  | tooLarge {digits rest : List Char} {value d : Nat} {c : Char} :
      Positional 16 digits value → value < 2 ^ 31 → DigitOf 16 c d → 2 ^ 31 ≤ value * 16 + d →
        Rejected ('u' :: '\x7b' :: (digits ++ c :: rest)) (.tooLarge value)

/-!
## Reading an escape
-/

attribute [local simp] escape

theorem isEscapeBlank_iff {c : Char} : isEscapeBlank c = true ↔ c ∈ escapeBlanks := by
  simp only [isEscapeBlank, escapeBlanks, Bool.or_eq_true, beq_iff_eq, List.mem_cons,
    List.not_mem_nil, or_false]
  tauto

theorem escape_letter {c : Char} {byte : UInt8} (h : (c, byte) ∈ letterEscapes)
    (rest : List Char) : escape (c :: rest) = .ok ([byte], rest) := by
  simp only [letterEscapes, List.mem_cons, Prod.mk.injEq, List.not_mem_nil, or_false] at h
  rcases h with ⟨rfl, rfl⟩ | ⟨rfl, rfl⟩ | ⟨rfl, rfl⟩ | ⟨rfl, rfl⟩ | ⟨rfl, rfl⟩ | ⟨rfl, rfl⟩ |
    ⟨rfl, rfl⟩ | ⟨rfl, rfl⟩ | ⟨rfl, rfl⟩ | ⟨rfl, rfl⟩ <;> rfl

theorem escape_breakPair {first second : Char} (h : (first, second) ∈ lineBreakPairs)
    (rest : List Char) : escape (first :: second :: rest) = .ok ([0x0A], rest) := by
  simp only [lineBreakPairs, List.mem_cons, Prod.mk.injEq, List.not_mem_nil, or_false] at h
  rcases h with ⟨rfl, rfl⟩ | ⟨rfl, rfl⟩ <;> rfl

theorem escape_lineBreak {c : Char} (hc : c = '\n' ∨ c = '\r') {rest : List Char}
    (hrest : ¬StartsIn (fun next => (c, next) ∈ lineBreakPairs) rest) :
    escape (c :: rest) = .ok ([0x0A], rest) := by
  cases rest with
  | nil => rcases hc with rfl | rfl <;> rfl
  | cons next rest =>
      rcases hc with rfl | rfl
      · have hnext : next ≠ '\r' := by simpa [lineBreakPairs, StartsIn] using hrest
        simp [hnext]
      · have hnext : next ≠ '\n' := by simpa [lineBreakPairs, StartsIn] using hrest
        simp [hnext]

theorem escape_skip {blanks rest : List Char} (hblanks : ∀ c ∈ blanks, c ∈ escapeBlanks)
    (hrest : ¬StartsIn (· ∈ escapeBlanks) rest) :
    escape ('z' :: (blanks ++ rest)) = .ok ([], rest) := by
  have hdrop : (blanks ++ rest).dropWhile isEscapeBlank = rest := by
    rw [List.dropWhile_append_of_pos fun c hc => isEscapeBlank_iff.mpr (hblanks c hc)]
    cases rest with
    | nil => rfl
    | cons c rest => exact List.dropWhile_cons_of_neg fun h => hrest (isEscapeBlank_iff.mp h)
  change Except.ok ([], (blanks ++ rest).dropWhile isEscapeBlank) = _
  rw [hdrop]

theorem escape_hexadecimal {high low : Char} {value : Nat} (h : Positional 16 [high, low] value)
    (rest : List Char) :
    escape ('x' :: high :: low :: rest) = .ok ([value.toUInt8], rest) := by
  rcases positional_two_iff.mp h with ⟨d, e, hhigh, hlow, rfl⟩
  simp [hexDigit_iff.mpr hhigh, hexDigit_iff.mpr hlow]

theorem escape_digit {c : Char} {d : Nat} (hc : DigitOf 10 c d) (rest : List Char) :
    escape (c :: rest) =
      let (value, rest) := moreDecimalDigits 2 d rest
      if value < 0x100 then .ok ([value.toUInt8], rest) else .error (.decimal value) := by
  rcases hc with ⟨hd, hc⟩
  interval_cases d <;> rcases hc with rfl | rfl <;> rfl

theorem escape_codePoint {digits rest : List Char} {value : Nat}
    (h : Positional 16 digits value) (hdigits : digits ≠ []) (hsmall : value < 2 ^ 31) :
    escape ('u' :: '\x7b' :: (digits ++ '\x7d' :: rest)) = .ok (utf8Sequence value, rest) := by
  have hstop : ¬StartsIn (IsDigit 16) ('\x7d' :: rest) := hexDigit_eq_none.mp rfl
  have hread := codePointDigits_positional h hsmall ('\x7d' :: rest)
  rw [codePointDigits_stop hstop] at hread
  rcases List.exists_cons_of_ne_nil hdigits with ⟨c, more, rfl⟩
  simp only [escape, hread, bind, Except.bind, List.length_cons, extendedUtf8_eq hsmall]

theorem escape_of_escape {text rest : List Char} {bytes : Bytes} (h : Escape text rest bytes) :
    escape (text ++ rest) = .ok (bytes, rest) := by
  cases h with
  | letter h => exact escape_letter h rest
  | breakPair h => exact escape_breakPair h rest
  | lineBreak hc hrest => exact escape_lineBreak hc hrest
  | skip hblanks hrest => exact escape_skip hblanks hrest
  | hexadecimal h => exact escape_hexadecimal h rest
  | decimal hrun hbyte =>
      rcases hrun.read with ⟨c, d, more, rfl, hc, hmore⟩
      rw [List.cons_append, escape_digit hc, hmore]
      exact if_pos hbyte
  | codePoint h hdigits hsmall =>
      simp only [List.cons_append, List.append_assoc, List.nil_append]
      exact escape_codePoint h hdigits hsmall

/-!
## Refusing a text
-/

theorem escape_unknown {c : Char} (h : c ∉ escapeStarts) (rest : List Char) :
    escape (c :: rest) = .error (.unknown c) := by
  have hdigit : decimalDigit? c = none := by
    refine decimalDigit_eq_none.mpr ?_
    rintro ⟨d, hd, hc⟩
    refine h ?_
    interval_cases d <;> rcases hc with rfl | rfl <;> decide
  unfold escape
  split
  case h_21 heq =>
    cases heq
    rw [hdigit]
  case h_1 heq => cases heq
  all_goals
    rename_i heq
    cases heq
    exact absurd (by decide) h

theorem escape_hexDigits {rest : List Char}
    (h : ∀ high low after, rest = high :: low :: after → ¬(IsDigit 16 high ∧ IsDigit 16 low)) :
    escape ('x' :: rest) = .error .hexDigits := by
  match rest with
  | [] => rfl
  | [high] => rfl
  | high :: low :: after =>
      rcases not_and_or.mp (h high low after rfl) with hhigh | hlow
      · simp [hexDigit_eq_none.mpr hhigh]
      · simp [hexDigit_eq_none.mpr hlow]

theorem escape_noBrace {rest : List Char} (h : ¬StartsIn (· = '\x7b') rest) :
    escape ('u' :: rest) = .error .noBrace := by
  cases rest with
  | nil => rfl
  | cons c rest =>
      have hc : c ≠ '\x7b' := h
      simp [hc]

theorem escape_noCodePoint {digits rest : List Char} {value : Nat}
    (h : Positional 16 digits value) (hsmall : value < 2 ^ 31)
    (hstop : ¬StartsIn (IsDigit 16) rest) (hclose : StartsIn (· = '\x7d') rest → digits = []) :
    escape ('u' :: '\x7b' :: (digits ++ rest)) = .error .codePoint := by
  have hread := codePointDigits_positional h hsmall rest
  rw [codePointDigits_stop hstop] at hread
  simp only [escape, hread, bind, Except.bind]
  split
  case h_1 heq =>
    simp only [Prod.mk.injEq] at heq
    rcases heq with ⟨_, hlength, hrest⟩
    rw [hrest] at hclose
    rw [hclose rfl] at hlength
    cases hlength
  case h_2 => rfl

theorem escape_tooLarge {digits rest : List Char} {value d : Nat} {c : Char}
    (h : Positional 16 digits value) (hsmall : value < 2 ^ 31) (hc : DigitOf 16 c d)
    (hlarge : 2 ^ 31 ≤ value * 16 + d) :
    escape ('u' :: '\x7b' :: (digits ++ c :: rest)) = .error (.tooLarge value) := by
  have hread := codePointDigits_positional h hsmall (c :: rest)
  rw [codePointDigits_over hc hlarge] at hread
  simp [hread, bind, Except.bind]

theorem escape_of_rejected {text : List Char} {e : BadEscape} (h : Rejected text e) :
    escape text = .error e := by
  cases h with
  | unfinished => rfl
  | unknown h => exact escape_unknown h _
  | hexDigits h => exact escape_hexDigits h
  | decimal hrun hlarge =>
      rcases hrun.read with ⟨c, d, more, rfl, hc, hmore⟩
      rw [List.cons_append, escape_digit hc, hmore]
      exact if_neg (Nat.not_lt_of_le hlarge)
  | noBrace h => exact escape_noBrace h
  | codePoint h hsmall hstop hclose => exact escape_noCodePoint h hsmall hstop hclose
  | tooLarge h hsmall hc hlarge => exact escape_tooLarge h hsmall hc hlarge

/-!
## No third case
-/

theorem exists_lineBreak {c : Char} (hc : IsBreak c) (rest : List Char) :
    ∃ text after, c :: rest = text ++ after ∧ LineBreak text after := by
  by_cases hnext : StartsIn (fun next => (c, next) ∈ lineBreakPairs) rest
  · match rest, hnext with
    | next :: after, hpair => exact ⟨[c, next], after, rfl, .pair hpair⟩
  · exact ⟨[c], rest, rfl, .single hc hnext⟩

theorem escape_of_lineBreak {text rest : List Char} (h : LineBreak text rest) :
    Escape text rest [0x0A] := by
  cases h with
  | pair hpair => exact .breakPair hpair
  | single hc hrest => exact .lineBreak hc hrest

theorem exists_skip (rest : List Char) :
    ∃ text after, 'z' :: rest = text ++ after ∧ Escape text after [] := by
  refine ⟨'z' :: rest.takeWhile isEscapeBlank, rest.dropWhile isEscapeBlank, ?_,
    .skip ?_ ?_⟩
  · rw [List.cons_append, List.takeWhile_append_dropWhile]
  · intro c hc
    exact isEscapeBlank_iff.mp (List.all_eq_true.mp List.all_takeWhile c hc)
  · have hhead := List.head?_dropWhile_not isEscapeBlank rest
    cases hdrop : rest.dropWhile isEscapeBlank with
    | nil => exact id
    | cons c after =>
        rw [hdrop] at hhead
        intro hc
        exact Bool.false_ne_true (hhead.symm.trans (isEscapeBlank_iff.mpr hc))

theorem exists_hexadecimal (rest : List Char) :
    (∃ text after bytes, 'x' :: rest = text ++ after ∧ Escape text after bytes) ∨
      Rejected ('x' :: rest) .hexDigits := by
  by_cases h : ∃ high low after, rest = high :: low :: after ∧ IsDigit 16 high ∧ IsDigit 16 low
  · rcases h with ⟨high, low, after, rfl, ⟨d, hd⟩, ⟨e, he⟩⟩
    have hvalue := positional_two_iff.mpr ⟨d, e, hd, he, rfl⟩
    exact Or.inl ⟨['x', high, low], after, _, rfl, .hexadecimal hvalue⟩
  · refine Or.inr (.hexDigits ?_)
    intro high low after hrest hdigits
    exact h ⟨high, low, after, hrest, hdigits⟩

theorem exists_codePoint_or_rejected (rest : List Char) :
    (∃ text after bytes, 'u' :: rest = text ++ after ∧ Escape text after bytes) ∨
      ∃ e, Rejected ('u' :: rest) e := by
  by_cases hbrace : StartsIn (· = '\x7b') rest
  case neg => exact Or.inr ⟨_, .noBrace hbrace⟩
  case pos =>
    match rest, hbrace with
    | _ :: rest, rfl =>
        rcases exists_codePoint rest with ⟨digits, value, after, rfl, hvalue, hsmall, hover⟩
        by_cases hdigit : StartsIn (IsDigit 16) after
        · rcases hover hdigit with ⟨c, d, after, rfl, hc, hlarge⟩
          exact Or.inr ⟨_, .tooLarge hvalue hsmall hc hlarge⟩
        · by_cases hclose : StartsIn (· = '\x7d') after → digits = []
          · exact Or.inr ⟨_, .codePoint hvalue hsmall hdigit hclose⟩
          · rcases Classical.not_imp.mp hclose with ⟨hbrace, hdigits⟩
            match after, hbrace with
            | _ :: after, rfl =>
                exact Or.inl ⟨'u' :: '\x7b' :: (digits ++ ['\x7d']), after, _, by simp,
                  .codePoint hvalue hdigits hsmall⟩

theorem exists_decimal {c : Char} (hc : IsDigit 10 c) (rest : List Char) :
    (∃ text after bytes, c :: rest = text ++ after ∧ Escape text after bytes) ∨
      ∃ e, Rejected (c :: rest) e := by
  rcases exists_decimalRun hc rest with ⟨digits, after, value, hsplit, hrun⟩
  rw [hsplit]
  by_cases hbyte : value < 256
  · exact Or.inl ⟨digits, after, _, rfl, .decimal hrun hbyte⟩
  · exact Or.inr ⟨_, .decimal hrun (Nat.le_of_not_lt hbyte)⟩

theorem mem_escapeStarts {c : Char} (h : c ∈ escapeStarts) :
    (∃ byte, (c, byte) ∈ letterEscapes) ∨ (c = '\n' ∨ c = '\r') ∨ c = 'z' ∨ c = 'x' ∨ c = 'u' ∨
      IsDigit 10 c := by
  have hall : (escapeStarts.all fun c => c ∈ letterEscapes.map Prod.fst ∨ (c = '\n' ∨ c = '\r') ∨
      c = 'z' ∨ c = 'x' ∨ c = 'u' ∨ (decimalDigit? c).isSome = true) = true := by
    decide +kernel
  rcases of_decide_eq_true (List.all_eq_true.mp hall c h) with
    hletter | hbreak | hz | hx | hu | hdigit
  · rcases List.mem_map.mp hletter with ⟨⟨_, byte⟩, hmem, rfl⟩
    exact Or.inl ⟨byte, hmem⟩
  · exact Or.inr (Or.inl hbreak)
  · exact Or.inr (Or.inr (Or.inl hz))
  · exact Or.inr (Or.inr (Or.inr (Or.inl hx)))
  · exact Or.inr (Or.inr (Or.inr (Or.inr (Or.inl hu))))
  · rcases Option.isSome_iff_exists.mp hdigit with ⟨d, hd⟩
    exact Or.inr (Or.inr (Or.inr (Or.inr (Or.inr ⟨d, decimalDigit_iff.mp hd⟩))))

theorem escape_or_rejected (text : List Char) :
    (∃ front rest bytes, text = front ++ rest ∧ Escape front rest bytes) ∨
      ∃ e, Rejected text e := by
  cases text with
  | nil => exact Or.inr ⟨_, .unfinished⟩
  | cons c rest =>
      by_cases hc : c ∈ escapeStarts
      case neg => exact Or.inr ⟨_, .unknown hc⟩
      case pos =>
        rcases mem_escapeStarts hc with ⟨byte, hletter⟩ | hbreak | rfl | rfl | rfl | hdigit
        · exact Or.inl ⟨[c], rest, _, rfl, .letter hletter⟩
        · rcases exists_lineBreak hbreak rest with ⟨front, after, hsplit, h⟩
          exact Or.inl ⟨front, after, _, hsplit, escape_of_lineBreak h⟩
        · rcases exists_skip rest with ⟨front, after, hsplit, h⟩
          exact Or.inl ⟨front, after, _, hsplit, h⟩
        · exact (exists_hexadecimal rest).imp_right fun h => ⟨_, h⟩
        · exact exists_codePoint_or_rejected rest
        · exact exists_decimal hdigit rest

end Lua
end LuaBundle
