import Mathlib.Algebra.Group.Nat.Defs
import Mathlib.Tactic.IntervalCases
import LuaBundle.Decimal.Reading
import LuaBundle.Lua.Literal

/-!
# Numbers in escapes

A row of digits writes a number in positional notation.  A code point is read for as long as
digits stand there and no digit takes it to 2^31; its bytes follow from the range it lies in.
-/

namespace LuaBundle
namespace Lua

open Text

/-!
## Digits
-/

def StartsIn (kind : Char → Prop) : List Char → Prop
  | [] => False
  | c :: _ => kind c

/-- A digit of a base up to sixteen, a letter in either case, and what it counts. -/
def DigitOf (base : Nat) (c : Char) (d : Nat) : Prop :=
  d < base ∧ (c = Nat.digitChar d ∨ c = (Nat.digitChar d).toUpper)

instance (base : Nat) (c : Char) (d : Nat) : Decidable (DigitOf base c d) :=
  inferInstanceAs (Decidable (_ ∧ _))

def IsDigit (base : Nat) (c : Char) : Prop :=
  ∃ d, DigitOf base c d

/-- A row of digits, the highest first, and the number it writes. -/
inductive Positional (base : Nat) : List Char → Nat → Prop where
  | none : Positional base [] 0
  | more {text : List Char} {value d : Nat} {c : Char} :
      Positional base text value → DigitOf base c d →
        Positional base (text ++ [c]) (value * base + d)

theorem toNat_lt_of_hexDigit {c : Char} {d : Nat} (h : hexDigit? c = some d) :
    c.toNat < 128 := by
  unfold hexDigit? at h
  split at h
  case isTrue hc => exact Nat.lt_of_le_of_lt hc.2 (by decide)
  case isFalse =>
    split at h
    case isTrue hc => exact Nat.lt_of_le_of_lt hc.2 (by decide)
    case isFalse =>
      split at h
      case isTrue hc => exact Nat.lt_of_le_of_lt hc.2 (by decide)
      case isFalse => cases h

theorem toNat_lt_of_decimalDigit {c : Char} {d : Nat} (h : decimalDigit? c = some d) :
    c.toNat < 128 := by
  unfold decimalDigit? at h
  split at h
  case isTrue hc => exact Nat.lt_of_le_of_lt hc.2 (by decide)
  case isFalse => cases h

/-- What reads digits is decided by its answers for ASCII and for the digits of its base. -/
theorem digit_iff {base : Nat} {digit? : Char → Option Nat}
    (hascii : ∀ {c d}, digit? c = some d → c.toNat < 128)
    (hread : ∀ n < 128, ∀ d ∈ digit? (Char.ofNat n), DigitOf base (Char.ofNat n) d)
    (hwritten : ∀ d < base, digit? (Nat.digitChar d) = some d ∧
      digit? (Nat.digitChar d).toUpper = some d) {c : Char} {d : Nat} :
    digit? c = some d ↔ DigitOf base c d := by
  constructor
  · intro h
    have hc := hread c.toNat (hascii h)
    rw [Char.ofNat_toNat] at hc
    exact hc d h
  · rintro ⟨hd, rfl | rfl⟩
    · exact (hwritten d hd).1
    · exact (hwritten d hd).2

theorem hexDigit_iff {c : Char} {d : Nat} : hexDigit? c = some d ↔ DigitOf 16 c d :=
  digit_iff toNat_lt_of_hexDigit (by decide +kernel) (by decide +kernel)

theorem decimalDigit_iff {c : Char} {d : Nat} : decimalDigit? c = some d ↔ DigitOf 10 c d :=
  digit_iff toNat_lt_of_decimalDigit (by decide +kernel) (by decide +kernel)

theorem hexDigit_eq_none {c : Char} : hexDigit? c = none ↔ ¬IsDigit 16 c := by
  rw [Option.eq_none_iff_forall_ne_some, IsDigit, not_exists]
  exact forall_congr' fun d => not_congr hexDigit_iff

theorem decimalDigit_eq_none {c : Char} : decimalDigit? c = none ↔ ¬IsDigit 10 c := by
  rw [Option.eq_none_iff_forall_ne_some, IsDigit, not_exists]
  exact forall_congr' fun d => not_congr decimalDigit_iff

theorem sign_of_isDigit {c : Char} (hc : c.isDigit = true) (rest : List Char) :
    Decimal.sign (c :: rest) = (false, c :: rest) := by
  unfold Decimal.sign
  split
  · rename_i heq
    cases heq
    exact absurd hc (by decide)
  · rename_i heq
    cases heq
    exact absurd hc (by decide)
  · rfl

theorem positional_append_iff {base value : Nat} {text : List Char} {c : Char} :
    Positional base (text ++ [c]) value ↔
      ∃ v d, Positional base text v ∧ DigitOf base c d ∧ value = v * base + d := by
  constructor
  · generalize htext : text ++ [c] = whole
    intro h
    cases h with
    | none => exact absurd htext (List.append_ne_nil_of_right_ne_nil _ (List.cons_ne_nil _ _))
    | more hfront hd =>
        rcases List.append_inj' htext rfl with ⟨rfl, hc⟩
        cases hc
        exact ⟨_, _, hfront, hd, rfl⟩
  · rintro ⟨v, d, hfront, hd, rfl⟩
    exact hfront.more hd

theorem positional_nil_iff {base value : Nat} : Positional base [] value ↔ value = 0 := by
  constructor
  · generalize htext : [] = whole
    intro h
    cases h with
    | none => rfl
    | more => exact absurd htext.symm (List.append_ne_nil_of_right_ne_nil _ (List.cons_ne_nil _ _))
  · rintro rfl
    exact .none

theorem positional_one_iff {base value : Nat} {c : Char} :
    Positional base [c] value ↔ DigitOf base c value := by
  rw [← List.nil_append [c], positional_append_iff]
  simp [positional_nil_iff]

theorem positional_two_iff {base value : Nat} {a b : Char} :
    Positional base [a, b] value ↔
      ∃ d e, DigitOf base a d ∧ DigitOf base b e ∧ value = d * base + e := by
  rw [show [a, b] = [a] ++ [b] from rfl, positional_append_iff]
  simp only [positional_one_iff]

/-!
## Decimal numbers
-/

/-- One to three decimal digits, as many as stand there, and the number they write. -/
structure DecimalRun (digits rest : List Char) (value : Nat) : Prop where
  positional : Positional 10 digits value
  nonempty : digits ≠ []
  short : digits.length ≤ 3
  greedy : StartsIn (IsDigit 10) rest → digits.length = 3

theorem moreDecimalDigits_more {n value d : Nat} {c : Char} (hc : DigitOf 10 c d)
    (rest : List Char) :
    moreDecimalDigits (n + 1) value (c :: rest) =
      moreDecimalDigits n (value * 10 + d) rest := by
  rw [moreDecimalDigits, decimalDigit_iff.mpr hc]

theorem moreDecimalDigits_stop {n value : Nat} {rest : List Char}
    (hrest : ¬StartsIn (IsDigit 10) rest) : moreDecimalDigits n value rest = (value, rest) := by
  cases n with
  | zero => rfl
  | succ n =>
      cases rest with
      | nil => rfl
      | cons c rest => rw [moreDecimalDigits, decimalDigit_eq_none.mpr hrest]

theorem DecimalRun.read {digits rest : List Char} {value : Nat} (h : DecimalRun digits rest value) :
    ∃ c d more, digits = c :: more ∧ DigitOf 10 c d ∧
      moreDecimalDigits 2 d (more ++ rest) = (value, rest) := by
  rcases h with ⟨hvalue, hnonempty, hshort, hgreedy⟩
  match digits, hnonempty, hshort with
  | [a], _, _ =>
      have ha := positional_one_iff.mp hvalue
      exact ⟨a, value, [], rfl, ha, moreDecimalDigits_stop fun h => by cases hgreedy h⟩
  | [a, b], _, _ =>
      rcases positional_two_iff.mp hvalue with ⟨d, e, ha, hb, rfl⟩
      refine ⟨a, d, [b], rfl, ha, (moreDecimalDigits_more hb rest).trans ?_⟩
      exact moreDecimalDigits_stop fun h => by cases hgreedy h
  | [a, b, c], _, _ =>
      have hsplit : Positional 10 ([a, b] ++ [c]) value := hvalue
      rcases positional_append_iff.mp hsplit with ⟨v, f, hv, hc, rfl⟩
      rcases positional_two_iff.mp hv with ⟨d, e, ha, hb, rfl⟩
      refine ⟨a, d, [b, c], rfl, ha, (moreDecimalDigits_more hb _).trans ?_⟩
      exact moreDecimalDigits_more hc rest

theorem exists_decimalRun {c : Char} (hc : IsDigit 10 c) (rest : List Char) :
    ∃ digits after value, c :: rest = digits ++ after ∧ DecimalRun digits after value := by
  rcases hc with ⟨d, hd⟩
  have hone := positional_one_iff.mpr hd
  match rest with
  | [] => exact ⟨[c], [], d, rfl, hone, by simp, by simp, False.elim⟩
  | b :: rest =>
      by_cases hb : IsDigit 10 b
      case neg => exact ⟨[c], b :: rest, d, rfl, hone, by simp, by simp, fun h => absurd h hb⟩
      case pos =>
        rcases hb with ⟨e, he⟩
        have htwo := hone.more he
        match rest with
        | [] => exact ⟨[c, b], [], _, rfl, htwo, by simp, by simp, False.elim⟩
        | a :: rest =>
            by_cases ha : IsDigit 10 a
            case neg =>
              exact ⟨[c, b], a :: rest, _, rfl, htwo, by simp, by simp, fun h => absurd h ha⟩
            case pos =>
              rcases ha with ⟨f, hf⟩
              exact ⟨[c, b, a], rest, _, rfl, htwo.more hf, by simp, by simp, fun _ => rfl⟩

/-!
## Code points
-/

theorem codePointDigits_more {code count d : Nat} {c : Char} (hc : DigitOf 16 c d)
    (hsmall : code * 16 + d < 2 ^ 31) (rest : List Char) :
    codePointDigits code count (c :: rest) =
      codePointDigits (code * 16 + d) (count + 1) rest := by
  rw [codePointDigits, hexDigit_iff.mpr hc]
  exact if_neg (by omega)

theorem codePointDigits_over {code count d : Nat} {c : Char} (hc : DigitOf 16 c d)
    (hlarge : 2 ^ 31 ≤ code * 16 + d) (rest : List Char) :
    codePointDigits code count (c :: rest) = .error (.tooLarge code) := by
  have hd := hc.1
  rw [codePointDigits, hexDigit_iff.mpr hc]
  exact if_pos (by omega)

theorem codePointDigits_stop {code count : Nat} {rest : List Char}
    (hrest : ¬StartsIn (IsDigit 16) rest) :
    codePointDigits code count rest = .ok (code, count, rest) := by
  cases rest with
  | nil => rfl
  | cons c rest => rw [codePointDigits, hexDigit_eq_none.mpr hrest]

theorem codePointDigits_positional {text : List Char} {value : Nat} (h : Positional 16 text value)
    (hsmall : value < 2 ^ 31) (rest : List Char) :
    codePointDigits 0 0 (text ++ rest) = codePointDigits value text.length rest := by
  induction h generalizing rest with
  | none => rfl
  | @more text value d c htext hc ih =>
      rw [List.append_assoc, List.singleton_append, ih (by omega), codePointDigits_more hc hsmall,
        List.length_append, List.length_singleton]

/-- Every text starts with the digits of a code point, up to what is no digit or to the digit
that takes it to 2^31. -/
theorem exists_codePoint (text : List Char) :
    ∃ digits value rest, text = digits ++ rest ∧ Positional 16 digits value ∧ value < 2 ^ 31 ∧
      (StartsIn (IsDigit 16) rest →
        ∃ c d after, rest = c :: after ∧ DigitOf 16 c d ∧ 2 ^ 31 ≤ value * 16 + d) := by
  suffices h : ∀ digits value, Positional 16 digits value → value < 2 ^ 31 →
      ∃ digits' value' rest, digits ++ text = digits' ++ rest ∧ Positional 16 digits' value' ∧
        value' < 2 ^ 31 ∧ (StartsIn (IsDigit 16) rest →
          ∃ c d after, rest = c :: after ∧ DigitOf 16 c d ∧ 2 ^ 31 ≤ value' * 16 + d) from
    h [] 0 .none (by decide)
  -- The digits read so far grow at the expense of the text.
  induction text with
  | nil =>
      intro digits value hdigits hsmall
      exact ⟨digits, value, [], rfl, hdigits, hsmall, False.elim⟩
  | cons c rest ih =>
      intro digits value hdigits hsmall
      by_cases hc : IsDigit 16 c
      · rcases hc with ⟨d, hd⟩
        by_cases hmore : value * 16 + d < 2 ^ 31
        · have := ih (digits ++ [c]) _ (hdigits.more hd) hmore
          rwa [List.append_assoc] at this
        · exact ⟨digits, value, c :: rest, rfl, hdigits, hsmall,
            fun _ => ⟨c, d, rest, rfl, hd, Nat.le_of_not_lt hmore⟩⟩
      · exact ⟨digits, value, c :: rest, rfl, hdigits, hsmall, fun h => absurd h hc⟩

/-!
## Bytes of a code point
-/

/-- The continuation byte that holds six bits of a code, counted in sixes from the lowest. -/
def continuation (code place : Nat) : UInt8 :=
  (0x80 + code / 64 ^ place % 64).toUInt8

/-- The sequence for a code in UTF-8 as first defined, up to six bytes for 31 bits. -/
def utf8Sequence (code : Nat) : Bytes :=
  let following (n : Nat) := (List.range n).reverse.map (continuation code)
  if code < 0x80 then [code.toUInt8]
  else if code < 0x800 then (0xC0 + code / 64).toUInt8 :: following 1
  else if code < 0x10000 then (0xE0 + code / 64 ^ 2).toUInt8 :: following 2
  else if code < 0x200000 then (0xF0 + code / 64 ^ 3).toUInt8 :: following 3
  else if code < 0x4000000 then (0xF8 + code / 64 ^ 4).toUInt8 :: following 4
  else (0xFC + code / 64 ^ 5).toUInt8 :: following 5

/-!
The loop that writes a sequence takes six bits at a time off a word, and a bit off the room in
the lead byte.
-/

def continuations (code n : Nat) : Bytes :=
  (List.range n).reverse.map (continuation code)

theorem toNat_shiftRight_six (code : UInt32) : (code >>> 6).toNat = code.toNat / 64 := by
  rw [UInt32.toNat_shiftRight]
  exact Nat.shiftRight_eq_div_pow code.toNat 6

theorem toNat_shiftRight_one (room : UInt32) : (room >>> 1).toNat = room.toNat / 2 := by
  rw [UInt32.toNat_shiftRight]
  exact Nat.shiftRight_eq_div_pow room.toNat 1

theorem toUInt32_eq {n : Nat} {word : UInt32} (h : word.toNat = n) : n.toUInt32 = word := by
  rw [← h]
  exact UInt32.ofNat_toNat

theorem toNat_toUInt32 {n : Nat} (h : n < 2 ^ 32) : n.toUInt32.toNat = n :=
  UInt32.toNat_ofNat_of_lt' h

theorem continuation_word (code : UInt32) :
    0x80 ||| (code &&& 0x3F).toUInt8 = continuation code.toNat 0 := by
  have hlow : (code &&& 0x3F).toUInt8 = (code.toNat % 64).toUInt8 := by
    apply UInt8.toNat_inj.mp
    rw [UInt32.toNat_toUInt8, UInt32.toNat_and]
    exact congrArg (· % 256) (Nat.and_two_pow_sub_one_eq_mod code.toNat 6)
  have hall : ∀ n < 64, (0x80 : UInt8) ||| n.toUInt8 = (0x80 + n).toUInt8 := by
    decide +kernel
  rw [hlow, hall _ (Nat.mod_lt _ (by decide)), continuation, Nat.pow_zero, Nat.div_one]

theorem continuations_succ (code n : Nat) :
    continuations code (n + 1) = continuations (code / 64) n ++ [continuation code 0] := by
  have hplace : ∀ place, continuation code (place + 1) = continuation (code / 64) place := by
    intro place
    rw [continuation, continuation, Nat.div_div_eq_div_mul, Nat.pow_succ']
  simp [continuations, List.range_succ_eq_map, hplace, Function.comp_def]

/-- The loop stops as soon as what is left of the code fits into what is left of the room; till
then every step has put a continuation byte in front. -/
theorem extendedTail_stops {fuel n : Nat} {code room : UInt32} {tail : Bytes} (hfuel : n < fuel)
    (hmore : ∀ k, 0 < k → k ≤ n → room.toNat / 2 ^ k < code.toNat / 64 ^ k)
    (hdone : code.toNat / 64 ^ (n + 1) ≤ room.toNat / 2 ^ (n + 1)) :
    extendedTail fuel code room tail =
      ((code.toNat / 64 ^ (n + 1)).toUInt32, (room.toNat / 2 ^ (n + 1)).toUInt32,
        continuations code.toNat (n + 1) ++ tail) := by
  -- By induction on the steps still to come.
  induction n generalizing fuel code room tail with
  | zero =>
      obtain ⟨fuel, rfl⟩ := Nat.exists_eq_add_one.mpr hfuel
      have hfits : code >>> 6 ≤ room >>> 1 := by
        rw [UInt32.le_iff_toNat_le, toNat_shiftRight_six, toNat_shiftRight_one]
        exact hdone
      rw [extendedTail, continuation_word]
      simp only [if_pos hfits]
      rw [Nat.zero_add, Nat.pow_one, Nat.pow_one, toUInt32_eq (toNat_shiftRight_six code),
        toUInt32_eq (toNat_shiftRight_one room)]
      rfl
  | succ n ih =>
      obtain ⟨fuel, rfl⟩ := Nat.exists_eq_add_one.mpr (Nat.zero_lt_of_lt hfuel)
      have hover : ¬code >>> 6 ≤ room >>> 1 := by
        rw [UInt32.le_iff_toNat_le, toNat_shiftRight_six, toNat_shiftRight_one]
        exact Nat.not_le_of_lt (hmore 1 (by decide) (by omega))
      have hcode : ∀ k, (code >>> 6).toNat / 64 ^ k = code.toNat / 64 ^ (k + 1) := by
        intro k
        rw [toNat_shiftRight_six, Nat.div_div_eq_div_mul, Nat.pow_succ']
      have hroom : ∀ k, (room >>> 1).toNat / 2 ^ k = room.toNat / 2 ^ (k + 1) := by
        intro k
        rw [toNat_shiftRight_one, Nat.div_div_eq_div_mul, Nat.pow_succ']
      rw [extendedTail, continuation_word]
      simp only [if_neg hover]
      rw [ih (by omega)]
      case hmore =>
          intro k hpositive hk
          rw [hcode, hroom]
          exact hmore (k + 1) (by omega) (by omega)
      case hdone =>
          rw [hcode, hroom]
          exact hdone
      rw [hcode, hroom, toNat_shiftRight_six, continuations_succ code.toNat, List.append_assoc,
        List.singleton_append]

/-- The complement of the room, shifted and cut off at eight bits, is the mark of the lead byte,
and the code fits into the zeros behind it. -/
theorem lead_word {steps value : Nat} (hsteps : steps < 5) (hfits : value ≤ 0x1F / 2 ^ steps) :
    (((~~~(0x1F / 2 ^ steps).toUInt32) <<< 1) ||| value.toUInt32).toUInt8 =
      (0x100 - 0x40 / 2 ^ steps + value).toUInt8 := by
  have hall : ∀ steps < 5, ∀ value ≤ 0x1F / 2 ^ steps,
      UInt32.toUInt8 (((~~~Nat.toUInt32 (0x1F / 2 ^ steps)) <<< 1) ||| value.toUInt32) =
        Nat.toUInt8 (0x100 - 0x40 / 2 ^ steps + value) := by
    decide +kernel
  exact hall steps hsteps value hfits

theorem extendedUtf8_of_steps {code n : Nat} (hn : n < 5) (hcode : code < 2 ^ 32)
    (hlarge : 0x80 ≤ code) (hmore : ∀ k, 0 < k → k ≤ n → 0x3F / 2 ^ k < code / 64 ^ k)
    (hdone : code / 64 ^ (n + 1) ≤ 0x3F / 2 ^ (n + 1)) :
    extendedUtf8 code.toUInt32 =
      (0x100 - 0x40 / 2 ^ n + code / 64 ^ (n + 1)).toUInt8 :: continuations code (n + 1) := by
  have hword := toNat_toUInt32 hcode
  have hsingle : ¬code.toUInt32 < 0x80 := by
    rw [UInt32.lt_iff_toNat_lt, hword]
    exact Nat.not_lt_of_le hlarge
  have hhalf : 0x3F / 2 ^ (n + 1) = 0x1F / 2 ^ n := by
    rw [Nat.pow_succ', ← Nat.div_div_eq_div_mul]
  have hroom : (0x3F : UInt32).toNat = 0x3F := rfl
  rw [extendedUtf8, if_neg hsingle, extendedTail_stops (n := n) (by omega)]
  case hmore =>
      rw [hword, hroom]
      exact hmore
  case hdone =>
      rw [hword, hroom]
      exact hdone
  rw [hhalf] at hdone
  simp only [hword, hroom, hhalf, lead_word hn hdone, List.append_nil]

theorem extendedUtf8_eq {code : Nat} (h : code < 2 ^ 31) :
    extendedUtf8 code.toUInt32 = utf8Sequence code := by
  have hcode : code < 2 ^ 32 := by omega
  unfold utf8Sequence
  by_cases h₁ : code < 0x80
  · have hsingle : code.toUInt32 < 0x80 := by
      rw [UInt32.lt_iff_toNat_lt, toNat_toUInt32 hcode]
      exact h₁
    rw [if_pos h₁, extendedUtf8, if_pos hsingle]
    apply congrArg (· :: [])
    apply UInt8.toNat_inj.mp
    rw [UInt32.toNat_toUInt8, toNat_toUInt32 hcode]
    rfl
  -- A longer sequence takes one more step of six bits and leaves the lead one bit less.
  have hlarge : 0x80 ≤ code := Nat.le_of_not_lt h₁
  by_cases h₂ : code < 0x800
  · rw [if_neg h₁, if_pos h₂, extendedUtf8_of_steps (n := 0) (by decide) hcode hlarge]
    · rfl
    · intro k hpositive hk
      omega
    · omega
  by_cases h₃ : code < 0x10000
  · rw [if_neg h₁, if_neg h₂, if_pos h₃,
      extendedUtf8_of_steps (n := 1) (by decide) hcode hlarge]
    · rfl
    · intro k hpositive hk
      interval_cases k
      omega
    · omega
  by_cases h₄ : code < 0x200000
  · rw [if_neg h₁, if_neg h₂, if_neg h₃, if_pos h₄,
      extendedUtf8_of_steps (n := 2) (by decide) hcode hlarge]
    · rfl
    · intro k hpositive hk
      interval_cases k <;> omega
    · omega
  by_cases h₅ : code < 0x4000000
  · rw [if_neg h₁, if_neg h₂, if_neg h₃, if_neg h₄, if_pos h₅,
      extendedUtf8_of_steps (n := 3) (by decide) hcode hlarge]
    · rfl
    · intro k hpositive hk
      interval_cases k <;> omega
    · omega
  · rw [if_neg h₁, if_neg h₂, if_neg h₃, if_neg h₄, if_neg h₅,
      extendedUtf8_of_steps (n := 4) (by decide) hcode hlarge]
    · rfl
    · intro k hpositive hk
      interval_cases k <;> omega
    · omega

end Lua
end LuaBundle
