import Mathlib.Data.List.Induction
import LuaBundle.Proofs.Grammar.FaultOrder
import LuaBundle.Proofs.Lexing.Spelling
import LuaBundle.Proofs.Literal.Numerals

/-!
# Hexadecimal numerals

After `0x` stand hexadecimal digits with at most one point, and maybe an exponent in decimal
digits.  Nothing else has a value there, and what has this form has one just when its exponent
is an integer of 32 bits.  So a source is refused for such a numeral when reading it comes to
one with an exponent out of this range, and never else.
-/

namespace LuaBundle
namespace Lua

open Text

/-- Hexadecimal digits, at least one, with at most one point among them. -/
structure HexMantissa (text : List Char) : Prop where
  inside : ∀ c ∈ text, c = '.' ∨ IsDigit 16 c
  onePoint : text.count '.' ≤ 1
  digit : ∃ c ∈ text, IsDigit 16 c

/-- Decimal digits, at least one, behind an optional sign, and the integer they write. -/
inductive SignedDecimal : List Char → Int → Prop where
  | plain {digits : List Char} {value : Nat} :
      digits ≠ [] → Positional 10 digits value → SignedDecimal digits value
  | plus {digits : List Char} {value : Nat} :
      digits ≠ [] → Positional 10 digits value → SignedDecimal ('+' :: digits) value
  | minus {digits : List Char} {value : Nat} :
      digits ≠ [] → Positional 10 digits value → SignedDecimal ('-' :: digits) (-value)

/-- What may follow the digits of a hexadecimal numeral, and the power of two it stands for. -/
inductive HexExponent : List Char → Int → Prop where
  | absent : HexExponent [] 0
  | marked {mark : Char} {text : List Char} {power : Int} :
      mark = 'p' ∨ mark = 'P' → SignedDecimal text power → HexExponent (mark :: text) power

/-- A hexadecimal numeral after its `0x`, and the power of two that its exponent stands for. -/
inductive HexNumeral : List Char → Int → Prop where
  | scaled {digits exponent : List Char} {power : Int} :
      HexMantissa digits → HexExponent exponent power → HexNumeral (digits ++ exponent) power

def FitsInt32 (n : Int) : Prop :=
  -2 ^ 31 ≤ n ∧ n < 2 ^ 31

instance (n : Int) : Decidable (FitsInt32 n) :=
  inferInstanceAs (Decidable (_ ∧ _))

/-!
## Signed integers
-/

theorem digitOf_ten_iff {c : Char} {d : Nat} :
    DigitOf 10 c d ↔ c.isDigit = true ∧ c.toNat - '0'.toNat = d := by
  rw [← decimalDigit_iff, decimalDigit?]
  have hrange : '0' ≤ c ∧ c ≤ '9' ↔ c.isDigit = true := by
    simp only [Char.isDigit, Bool.and_eq_true, decide_eq_true_eq]
    exact Iff.rfl
  simp only [hrange, Option.ite_none_right_eq_some, Option.some.injEq]

theorem positional_ten_iff {digits : List Char} {value : Nat} :
    Positional 10 digits value ↔
      digits.all Char.isDigit = true ∧ Decimal.digitsOnto 0 digits = value := by
  -- A row of digits grows at its end.
  induction digits using List.reverseRecOn generalizing value with
  | nil =>
      rw [positional_nil_iff]
      simp [Decimal.digitsOnto, eq_comm]
  | append_singleton front c ih =>
      have honto : Decimal.digitsOnto 0 (front ++ [c]) =
          Decimal.digitsOnto 0 front * 10 + (c.toNat - '0'.toNat) := by
        rw [Decimal.digitsOnto, List.foldl_append]
        rfl
      rw [positional_append_iff, honto, List.all_append]
      simp only [ih, digitOf_ten_iff, List.all_cons, List.all_nil, Bool.and_true,
        Bool.and_eq_true]
      constructor
      · rintro ⟨_, _, ⟨hfront, rfl⟩, ⟨hc, rfl⟩, rfl⟩
        exact ⟨⟨hfront, hc⟩, rfl⟩
      · rintro ⟨⟨hfront, hc⟩, rfl⟩
        exact ⟨_, _, ⟨hfront, rfl⟩, ⟨hc, rfl⟩, rfl⟩

theorem integer?_of_sign {text digits : List Char} {negative : Bool} {n : Int}
    (hsign : Decimal.sign text = (negative, digits)) :
    Decimal.integer? text = some n ↔
      ∃ value : Nat, digits ≠ [] ∧ Positional 10 digits value ∧
        (if negative then -(value : Int) else value) = n := by
  simp only [Decimal.integer?, hsign, positional_ten_iff]
  by_cases hdigits : digits ≠ [] ∧ digits.all Char.isDigit = true
  · simp [hdigits]
  · have hrefused : (digits.isEmpty || !digits.all Char.isDigit) = true := by
      rw [Bool.or_eq_true, List.isEmpty_iff, Bool.not_eq_true', ← Bool.not_eq_true]
      exact (not_and_or.mp hdigits).imp_left not_not.mp
    rw [if_pos hrefused]
    constructor
    · intro h
      cases h
    · rintro ⟨value, hnonempty, ⟨hall, _⟩, _⟩
      exact absurd ⟨hnonempty, hall⟩ hdigits

theorem integer?_iff {text : List Char} {n : Int} :
    Decimal.integer? text = some n ↔ SignedDecimal text n := by
  constructor
  · intro h
    rcases hsign : Decimal.sign text with ⟨negative, digits⟩
    rcases (integer?_of_sign hsign).mp h with ⟨value, hnonempty, hvalue, rfl⟩
    unfold Decimal.sign at hsign
    split at hsign
    · cases hsign
      exact .minus hnonempty hvalue
    · cases hsign
      exact .plus hnonempty hvalue
    · cases hsign
      exact .plain hnonempty hvalue
  · intro h
    cases h with
    | plain hnonempty hvalue =>
        rcases List.exists_cons_of_ne_nil hnonempty with ⟨c, rest, rfl⟩
        have hc := List.all_eq_true.mp (positional_ten_iff.mp hvalue).1 c List.mem_cons_self
        exact (integer?_of_sign (sign_of_isDigit hc rest)).mpr ⟨_, hnonempty, hvalue, rfl⟩
    | plus hnonempty hvalue => exact (integer?_of_sign rfl).mpr ⟨_, hnonempty, hvalue, rfl⟩
    | minus hnonempty hvalue => exact (integer?_of_sign rfl).mpr ⟨_, hnonempty, hvalue, rfl⟩

theorem hexExponent?_iff {text : List Char} :
    (∃ n, hexExponent? text = some n) ↔ ∃ n, SignedDecimal text n ∧ FitsInt32 n := by
  have hfits : ∀ n, minInt32 ≤ n ∧ n ≤ maxInt32 ↔ FitsInt32 n := by
    intro n
    unfold minInt32 maxInt32 FitsInt32
    omega
  simp only [hexExponent?, Option.bind_eq_some_iff, hfits, integer?_iff,
    Option.ite_none_right_eq_some]
  constructor
  · rintro ⟨_, n, hn, hfit, _⟩
    exact ⟨n, hn, hfit⟩
  · rintro ⟨n, hn, hfit⟩
    exact ⟨n, n, hn, hfit, rfl⟩

theorem SignedDecimal.unique {text : List Char} {n m : Int} (hn : SignedDecimal text n)
    (hm : SignedDecimal text m) : n = m :=
  Option.some.inj ((integer?_iff.mpr hn).symm.trans (integer?_iff.mpr hm))

/-!
## Digits and the point

The digits are read from left to right.  What has been read keeps count of the digits, and of
whether the point has been met.
-/

/-- All that a character can do: it is the first point, or one more digit, or it is refused. -/
theorem HexDigits.push_cases (h : HexDigits) (c : Char) :
    (c = '.' ∧ h.afterPoint = false ∧ h.push c = some { h with afterPoint := true }) ∨
      (IsDigit 16 c ∧ ∃ g, h.push c = some g ∧ g.afterPoint = h.afterPoint ∧
        g.count = h.count + 1) ∨
      ¬IsDigit 16 c ∧ (c = '.' → h.afterPoint = true) ∧ h.push c = none := by
  by_cases hpoint : c = '.' ∧ h.afterPoint = false
  · exact Or.inl ⟨hpoint.1, hpoint.2, if_pos hpoint⟩
  · have hpush : h.push c = (hexDigit? c).map _ := if_neg hpoint
    rw [hpush]
    cases hdigit : hexDigit? c with
    | some d => exact Or.inr (Or.inl ⟨⟨d, hexDigit_iff.mp hdigit⟩, _, rfl, rfl, rfl⟩)
    | none =>
        refine Or.inr (Or.inr ⟨hexDigit_eq_none.mp hdigit, ?_, rfl⟩)
        intro hc
        by_contra hmet
        exact hpoint ⟨hc, Bool.eq_false_of_not_eq_true hmet⟩

theorem ne_point_of_isDigit {c : Char} (hc : IsDigit 16 c) : c ≠ '.' := by
  rintro rfl
  exact hexDigit_eq_none.mp rfl hc

/-- A row that has been read holds digits and at most one point, counting one met before, and
all but the point have been counted. -/
theorem foldlM_push_counts {h g : HexDigits} {text : List Char}
    (hread : text.foldlM HexDigits.push h = some g) :
    (∀ c ∈ text, c = '.' ∨ IsDigit 16 c) ∧ h.afterPoint.toNat + text.count '.' ≤ 1 ∧
      g.count + text.count '.' = h.count + text.length := by
  induction text generalizing h with
  | nil =>
      cases hread
      exact ⟨by simp, by simpa using Bool.toNat_le _, by simp⟩
  | cons c rest ih =>
      rw [List.foldlM_cons] at hread
      rcases HexDigits.push_cases h c with ⟨rfl, hfirst, hpush⟩ | ⟨hc, k, hpush, hmet, hcount⟩ |
        ⟨_, _, hpush⟩
      · rw [hpush] at hread
        rcases ih hread with ⟨hinside, hpoints, htotal⟩
        simp only [Bool.toNat_true] at hpoints htotal
        refine ⟨List.forall_mem_cons.mpr ⟨Or.inl rfl, hinside⟩, ?_, ?_⟩
        · rw [hfirst, List.count_cons_self]
          simpa using hpoints
        · rw [List.count_cons_self, List.length_cons]
          omega
      · rw [hpush] at hread
        rcases ih hread with ⟨hinside, hpoints, htotal⟩
        rw [hmet] at hpoints
        rw [List.count_cons_of_ne (ne_point_of_isDigit hc), List.length_cons]
        exact ⟨List.forall_mem_cons.mpr ⟨Or.inr hc, hinside⟩, hpoints, by omega⟩
      · rw [hpush] at hread
        cases hread

theorem exists_foldlM_push {h : HexDigits} {text : List Char}
    (hinside : ∀ c ∈ text, c = '.' ∨ IsDigit 16 c)
    (hpoints : h.afterPoint.toNat + text.count '.' ≤ 1) :
    ∃ g, text.foldlM HexDigits.push h = some g := by
  induction text generalizing h with
  | nil => exact ⟨h, rfl⟩
  | cons c rest ih =>
      rcases List.forall_mem_cons.mp hinside with ⟨hc, hrest⟩
      rw [List.foldlM_cons]
      rcases HexDigits.push_cases h c with ⟨rfl, hfirst, hpush⟩ | ⟨hdigit, k, hpush, hmet, _⟩ |
        ⟨hdigit, hpoint, hpush⟩
      · rw [hpush]
        rw [hfirst, List.count_cons_self] at hpoints
        exact ih hrest (by simpa using hpoints)
      · rw [hpush]
        rw [List.count_cons_of_ne (ne_point_of_isDigit hdigit)] at hpoints
        exact ih hrest (by rwa [hmet])
      · -- A second point would be one too many.
        rcases hc with rfl | hc
        · rw [hpoint rfl, List.count_cons_self, Bool.toNat_true] at hpoints
          omega
        · exact absurd hc hdigit

/-- The digits of a numeral are read, and at least one is counted, just when they are digits
with at most one point. -/
theorem hexMantissa_iff {text : List Char} :
    HexMantissa text ↔
      ∃ g, text.foldlM HexDigits.push HexDigits.start = some g ∧ g.count ≠ 0 := by
  constructor
  · rintro ⟨hinside, hpoint, c, hmem, hc⟩
    have hpoints : HexDigits.start.afterPoint.toNat + text.count '.' ≤ 1 := by
      simpa [HexDigits.start] using hpoint
    rcases exists_foldlM_push hinside hpoints with ⟨g, hread⟩
    refine ⟨g, hread, ?_⟩
    intro hnone
    have htotal := (foldlM_push_counts hread).2.2
    rw [hnone, HexDigits.start, Nat.zero_add, Nat.zero_add, List.count_eq_length] at htotal
    exact ne_point_of_isDigit hc (htotal c hmem).symm
  · rintro ⟨g, hread, hsome⟩
    rcases foldlM_push_counts hread with ⟨hinside, hpoints, htotal⟩
    refine ⟨hinside, le_of_add_le_right hpoints, ?_⟩
    by_contra hdigit
    have hall : ∀ c ∈ text, '.' = c := by
      intro c hmem
      rcases hinside c hmem with hc | hc
      · exact hc.symm
      · exact absurd ⟨c, hmem, hc⟩ hdigit
    rw [List.count_eq_length.mpr hall] at htotal
    exact hsome (Nat.add_right_cancel htotal)

/-!
## Numerals

The first mark of an exponent cuts a numeral in two, as no digit is a mark.
-/

def isUnmarked (c : Char) : Bool :=
  !(c == 'p' || c == 'P')

theorem isUnmarked_eq_false {c : Char} : isUnmarked c = false ↔ c = 'p' ∨ c = 'P' := by
  rw [isUnmarked, Bool.not_eq_false', Bool.or_eq_true, beq_iff_eq, beq_iff_eq]

theorem mark_outside {mark : Char} (hmark : mark = 'p' ∨ mark = 'P') :
    mark ≠ '.' ∧ ¬IsDigit 16 mark := by
  rcases hmark with rfl | rfl
  · exact ⟨by decide, hexDigit_eq_none.mp rfl⟩
  · exact ⟨by decide, hexDigit_eq_none.mp rfl⟩

theorem HexMantissa.unmarked {digits : List Char} (h : HexMantissa digits) :
    ∀ c ∈ digits, isUnmarked c = true := by
  intro c hmem
  rw [← Bool.not_eq_false, isUnmarked_eq_false]
  intro hmark
  rcases mark_outside hmark with ⟨hpoint, hdigit⟩
  exact (h.inside c hmem).elim hpoint hdigit

theorem HexExponent.startsOutside {text : List Char} {power : Int} (h : HexExponent text power) :
    StartsOutside isUnmarked text := by
  cases h with
  | absent => exact startsOutside_nil _
  | marked hmark _ => exact startsOutside_cons.mpr (isUnmarked_eq_false.mpr hmark)

theorem hexNumeral_iff {text digits exponent : List Char} {power : Int}
    (hcut : cutWhile isUnmarked text = (digits, exponent)) :
    HexNumeral text power ↔ HexMantissa digits ∧ HexExponent exponent power := by
  constructor
  · intro h
    cases h with
    | scaled hdigits hexponent =>
        rw [cutWhile_of_all hdigits.unmarked hexponent.startsOutside] at hcut
        cases hcut
        exact ⟨hdigits, hexponent⟩
  · rintro ⟨hdigits, hexponent⟩
    rw [(all_of_cutWhile hcut).2.2]
    exact .scaled hdigits hexponent

theorem HexExponent.unique {text : List Char} {n m : Int} (hn : HexExponent text n)
    (hm : HexExponent text m) : n = m := by
  cases hn with
  | absent =>
      cases hm
      rfl
  | marked _ hn =>
      cases hm with
      | marked _ hm => exact hn.unique hm

theorem HexNumeral.unique {text : List Char} {n m : Int} (hn : HexNumeral text n)
    (hm : HexNumeral text m) : n = m := by
  rcases hcut : cutWhile isUnmarked text with ⟨digits, exponent⟩
  exact ((hexNumeral_iff hcut).mp hn).2.unique ((hexNumeral_iff hcut).mp hm).2

theorem hexValue?_of_cut {text digits exponent : List Char}
    (hcut : cutWhile isUnmarked text = (digits, exponent)) :
    hexValue? text = (digits.foldlM HexDigits.push HexDigits.start).bind fun read =>
      if read.count = 0 then none
      else
        match exponent with
        | [] => some (read.mantissa * powerOfTwo read.scale)
        | _ :: exponent =>
            (hexExponent? exponent).bind fun power =>
              some (read.mantissa * powerOfTwo (read.scale + power)) := by
  simp only [cutWhile, Prod.mk.injEq] at hcut
  rcases hcut with ⟨rfl, rfl⟩
  rfl

/-- What follows `0x` has a value just when it is a numeral whose exponent is an integer of 32
bits. -/
theorem hexValue?_iff {text : List Char} :
    (∃ value, hexValue? text = some value) ↔
      ∃ power, HexNumeral text power ∧ FitsInt32 power := by
  rcases hcut : cutWhile isUnmarked text with ⟨digits, exponent⟩
  rw [hexValue?_of_cut hcut]
  simp only [hexNumeral_iff hcut]
  constructor
  · rintro ⟨value, h⟩
    rcases Option.bind_eq_some_iff.mp h with ⟨read, hread, hvalue⟩
    have hsome : read.count ≠ 0 := by
      intro hnone
      rw [if_pos hnone] at hvalue
      cases hvalue
    have hdigits : HexMantissa digits := hexMantissa_iff.mpr ⟨read, hread, hsome⟩
    rw [if_neg hsome] at hvalue
    cases exponent with
    | nil => exact ⟨0, ⟨hdigits, .absent⟩, by decide⟩
    | cons mark exponent =>
        have hmark := isUnmarked_eq_false.mp (startsOutside_cons.mp (all_of_cutWhile hcut).2.1)
        rcases Option.bind_eq_some_iff.mp hvalue with ⟨n, hn, _⟩
        rcases hexExponent?_iff.mp ⟨n, hn⟩ with ⟨power, hpower, hfits⟩
        exact ⟨power, ⟨hdigits, .marked hmark hpower⟩, hfits⟩
  · rintro ⟨power, ⟨hdigits, hexponent⟩, hfits⟩
    rcases hexMantissa_iff.mp hdigits with ⟨read, hread, hsome⟩
    rw [hread, Option.bind_some, if_neg hsome]
    cases hexponent with
    | absent => exact ⟨_, rfl⟩
    | marked _ hpower =>
        rcases hexExponent?_iff.mpr ⟨power, hpower, hfits⟩ with ⟨n, hn⟩
        exact ⟨_, Option.bind_eq_some_iff.mpr ⟨n, hn, rfl⟩⟩

/-!
## One token

With a digit in front of its point a numeral is one token: its digits, its point and the digits
of its exponent are all taken in, and nothing is left over.
-/

theorem isHexPart_of_isDigit {c : Char} (hc : IsDigit 16 c) : isHexPart c = true := by
  have hall : ∀ d < 16, isHexPart (Nat.digitChar d) = true ∧
      isHexPart (Nat.digitChar d).toUpper = true := by
    decide
  rcases hc with ⟨d, hd, rfl | rfl⟩
  · exact (hall d hd).1
  · exact (hall d hd).2

theorem SignedDecimal.parts {text : List Char} {n : Int} (h : SignedDecimal text n) :
    ∃ sign digits, cutSign text = (sign, digits) ∧ text = sign ++ digits ∧ digits ≠ [] ∧
      ∀ c ∈ digits, isHexPart c = true := by
  have hparts : ∀ {digits : List Char} {value : Nat}, Positional 10 digits value →
      ∀ c ∈ digits, isHexPart c = true := by
    intro digits value hvalue c hmem
    have hdigit := List.all_eq_true.mp (positional_ten_iff.mp hvalue).1 c hmem
    simp [isHexPart, hdigit]
  cases h with
  | plus hnonempty hvalue => exact ⟨['+'], _, rfl, rfl, hnonempty, hparts hvalue⟩
  | minus hnonempty hvalue => exact ⟨['-'], _, rfl, rfl, hnonempty, hparts hvalue⟩
  | plain hnonempty hvalue =>
      refine ⟨[], text, ?_, rfl, hnonempty, hparts hvalue⟩
      rcases List.exists_cons_of_ne_nil hnonempty with ⟨c, rest, rfl⟩
      have hc := hparts hvalue c List.mem_cons_self
      have hne : ∀ d, isHexPart d = false → c ≠ d := by
        rintro d hd rfl
        rw [hc] at hd
        cases hd
      have hcut : cutSign (c :: rest ++ []) = ([], c :: rest ++ []) :=
        cutSign_digit (hne '+' (by decide)) (hne '-' (by decide))
      rwa [List.append_nil] at hcut

theorem HexExponent.cut_eq {text : List Char} {power : Int} (h : HexExponent text power) :
    cutExponent (fun c => c == 'p' || c == 'P') isHexPart text = (text, []) := by
  cases h with
  | absent => rfl
  | @marked mark text _ hmark hpower =>
      rcases hpower.parts with ⟨sign, digits, hsign, rfl, hnonempty, hall⟩
      have hcut := cutWhile_of_all hall (startsOutside_nil _)
      rw [List.append_nil] at hcut
      simp [cutExponent, hsign, hcut, hmark, hnonempty]

theorem HexExponent.outside {text : List Char} {power : Int} (h : HexExponent text power) :
    StartsOutside isHexPart text ∧ StartsOutside (· == '.') text := by
  cases h with
  | absent => exact ⟨startsOutside_nil _, startsOutside_nil _⟩
  | marked hmark _ =>
      rw [startsOutside_cons, startsOutside_cons]
      rcases hmark with rfl | rfl <;> decide

/-- What may stand between the whole digits of a numeral and its exponent. -/
inductive HexFraction : List Char → Prop where
  | absent : HexFraction []
  | point {digits : List Char} :
      (∀ c ∈ digits, isHexPart c = true) → HexFraction ('.' :: digits)

theorem HexMantissa.parts {text : List Char} (h : HexMantissa text) :
    ∃ whole fraction, text = whole ++ fraction ∧ (∀ c ∈ whole, isHexPart c = true) ∧
      HexFraction fraction := by
  have hparts : ∀ row : List Char, (∀ c ∈ row, c ∈ text) → '.' ∉ row →
      ∀ c ∈ row, isHexPart c = true := by
    intro row hrow hnone c hmem
    rcases h.inside c (hrow c hmem) with rfl | hc
    · exact absurd hmem hnone
    · exact isHexPart_of_isDigit hc
  by_cases hpoint : '.' ∈ text
  · rcases List.append_of_mem hpoint with ⟨whole, digits, rfl⟩
    have hcount := h.onePoint
    rw [List.count_append, List.count_cons_self] at hcount
    have hwhole : '.' ∉ whole := List.count_eq_zero.mp (by omega)
    have hdigits : '.' ∉ digits := List.count_eq_zero.mp (by omega)
    refine ⟨whole, '.' :: digits, rfl, hparts whole ?_ hwhole, .point (hparts digits ?_ hdigits)⟩
    · intro c hc
      exact List.mem_append_left _ hc
    · intro c hc
      exact List.mem_append_right _ (List.mem_cons_of_mem _ hc)
  · exact ⟨text, [], by simp, hparts text (fun _ hc => hc) hpoint, .absent⟩

theorem cutNumberTail_fraction {fraction exponent : List Char} {power : Int}
    (hfraction : HexFraction fraction) (hexponent : HexExponent exponent power) :
    StartsOutside isHexPart (fraction ++ exponent) ∧
      cutNumberTail (fun c => c == 'p' || c == 'P') isHexPart (fraction ++ exponent) =
        (fraction ++ exponent, []) := by
  rcases hexponent.outside with ⟨hdigit, hpoint⟩
  cases hfraction with
  | absent =>
      have hnone : cutFraction isHexPart [] = ([], []) := rfl
      have hcut : cutFraction isHexPart exponent = ([], exponent) :=
        (cutFraction_stable hnone).2.2 exponent hdigit fun _ => hpoint
      refine ⟨hdigit, ?_⟩
      simp only [List.nil_append, cutNumberTail, hcut, hexponent.cut_eq, cutSuffix,
        List.append_nil]
  | @point digits hdigits =>
      have hcut : cutFraction isHexPart ('.' :: digits ++ exponent) =
          ('.' :: digits, exponent) := by
        simp [cutFraction, cutWhile_of_all hdigits hdigit, Cut.after]
      refine ⟨startsOutside_cons.mpr (by decide), ?_⟩
      simp only [cutNumberTail, hcut, hexponent.cut_eq, cutSuffix, List.append_nil]

theorem alone_hexNumeral {x : Char} (hx : x = 'x' ∨ x = 'X') {text : List Char} {power : Int}
    (h : HexNumeral text power) (hfirst : StartsIn (IsDigit 16) text) :
    Alone .number (String.ofList ('0' :: x :: text)) := by
  cases h with
  | @scaled digits exponent _ hdigits hexponent =>
      rcases hdigits.parts with ⟨whole, fraction, rfl, hwhole, hfraction⟩
      rcases cutNumberTail_fraction hfraction hexponent with ⟨houtside, htail⟩
      rw [List.append_assoc] at hfirst ⊢
      have hnonempty : whole ≠ [] := by
        rintro rfl
        -- Then the text starts with the point or with a mark.
        cases hrest : fraction ++ exponent with
        | nil => simp [hrest, StartsIn] at hfirst
        | cons c rest =>
            rw [List.nil_append, hrest] at hfirst
            rw [hrest, startsOutside_cons, isHexPart_of_isDigit hfirst] at houtside
            cases houtside
      have hcut : cutHexadecimal x (whole ++ (fraction ++ exponent)) =
          some ('0' :: x :: (whole ++ (fraction ++ exponent)), []) := by
        simp [cutHexadecimal, cutWhile_of_all hwhole houtside, htail, hnonempty, Cut.after]
      have hnumber : cutNumber ('0' :: x :: (whole ++ (fraction ++ exponent))) =
          some ('0' :: x :: (whole ++ (fraction ++ exponent)), []) := by
        simp only [cutNumber, if_pos hx, hcut, Option.getD_some]
      unfold Alone
      rw [String.toList_ofList]
      exact cutLexeme_number hnumber

/-!
## Reports

A number is reported when it is the first fault of a source that the grammar accepts.
-/

/-- Reading a source comes to a number on a line: the grammar accepts the source, and no token
in front of the number is at fault. -/
def ReachesNumber (encoding : Encoding) (source : List Char) (raw : String) (line : Nat) : Prop :=
  ∃ lexemes body front t back, lex source = .ok lexemes ∧ program (tokens lexemes) = .ok body ∧
    tokens lexemes = front ++ t :: back ∧ faultsFrom encoding {} front = [] ∧
    t.kind = .number ∧ t.text = raw ∧ t.line = line

theorem fault?_malformed {encoding : Encoding} {s : Standing} {t : Token} {raw : String}
    {line : Nat} :
    t.fault? encoding s = some ⟨.malformedNumber raw, line⟩ ↔
      t.kind = .number ∧ t.text = raw ∧ t.line = line ∧ numeralValue? raw.toList = none := by
  constructor
  · intro h
    cases hkind : t.kind with
    | number =>
        simp only [Token.fault?, hkind] at h
        cases hvalue : numeralValue? t.text.toList with
        | some value => simp [hvalue] at h
        | none =>
            simp only [hvalue] at h
            cases h
            exact ⟨rfl, rfl, rfl, hvalue⟩
    | string =>
        simp only [Token.fault?, hkind] at h
        split at h <;> cases h
    | name =>
        simp only [Token.fault?, hkind] at h
        split at h <;> cases h
    | reserved =>
        simp only [Token.fault?, hkind] at h
        split at h <;> cases h
    | blank | lineComment | longComment | finish =>
        simp [Token.fault?, hkind] at h
  · rintro ⟨hkind, rfl, rfl, hvalue⟩
    simp only [Token.fault?, hkind, hvalue]

/-- A number is reported just when reading comes to it and it has no value. -/
theorem malformed_reported_iff {encoding : Encoding} {source : List Char} {raw : String}
    {line : Nat} :
    parse encoding source = .error (.faulty ⟨.malformedNumber raw, line⟩) ↔
      ReachesNumber encoding source raw line ∧ numeralValue? raw.toList = none := by
  constructor
  · intro h
    cases hlex : lex source with
    | error other => simp [parse, hlex] at h
    | ok lexemes =>
        cases hprogram : program (tokens lexemes) with
        | error other => simp [parse, hlex, bodyOf, hprogram] at h
        | ok body =>
            cases hfaults : blockFaults encoding true body with
            | nil => simp [parse, hlex, bodyOf, hprogram, hfaults] at h
            | cons fault more =>
                have hfirst : fault = ⟨.malformedNumber raw, line⟩ := by
                  simpa [parse, hlex, bodyOf, hprogram, hfaults] using h
                subst hfirst
                rw [← program_faults hlex hprogram] at hfaults
                rcases faultsFrom_eq_cons hfaults with ⟨front, t, back, htokens, hfront, hfault⟩
                rcases fault?_malformed.mp hfault with ⟨hkind, htext, hline, hvalue⟩
                exact ⟨⟨lexemes, body, front, t, back, hlex, hprogram, htokens, hfront, hkind,
                  htext, hline⟩, hvalue⟩
  · rintro ⟨⟨lexemes, body, front, t, back, hlex, hprogram, htokens, hfront, hkind, htext, hline⟩,
      hvalue⟩
    have hfault : t.fault? encoding (standing front) = some ⟨.malformedNumber raw, line⟩ :=
      fault?_malformed.mpr ⟨hkind, htext, hline, hvalue⟩
    have hfaults : blockFaults encoding true body = ⟨.malformedNumber raw, line⟩ ::
        faultsFrom encoding ((standing front).step t) back := by
      rw [← program_faults hlex hprogram, htokens, faultsFrom_append, hfront, ← standing,
        faultsFrom, hfault]
      rfl
    simp only [parse, hlex, bodyOf, hprogram, hfaults]

/-!
## The value of a numeral
-/

/-- After `0x` only numerals have values.  A numeral has one just when its exponent is an
integer of 32 bits.  With a digit in front of its point it is one token, and a source is refused
because of a numeral just when reading comes to it and its exponent does not fit. -/
theorem hexadecimal_numeral {x : Char} (hx : x = 'x' ∨ x = 'X') (text : List Char) :
    (∀ value, numeralValue? ('0' :: x :: text) = some value → ∃ power, HexNumeral text power) ∧
    ∀ power, HexNumeral text power →
      ((∃ value, numeralValue? ('0' :: x :: text) = some value) ↔ FitsInt32 power) ∧
      (StartsIn (IsDigit 16) text → Alone .number (String.ofList ('0' :: x :: text))) ∧
      ∀ encoding source line,
        parse encoding source =
            .error (.faulty ⟨.malformedNumber (String.ofList ('0' :: x :: text)), line⟩) ↔
          ReachesNumber encoding source (String.ofList ('0' :: x :: text)) line ∧
            ¬FitsInt32 power := by
  have hhex : numeralValue? ('0' :: x :: text) = hexValue? text := by
    rcases hx with rfl | rfl <;> rfl
  constructor
  · intro value hvalue
    rw [hhex] at hvalue
    rcases hexValue?_iff.mp ⟨value, hvalue⟩ with ⟨power, hpower, _⟩
    exact ⟨power, hpower⟩
  intro power hpower
  have hfits : (∃ value, hexValue? text = some value) ↔ FitsInt32 power := by
    rw [hexValue?_iff]
    constructor
    · rintro ⟨other, hother, hfits⟩
      rwa [hpower.unique hother]
    · intro hfits
      exact ⟨power, hpower, hfits⟩
  rw [hhex]
  refine ⟨hfits, alone_hexNumeral hx hpower, ?_⟩
  intro encoding source line
  rw [malformed_reported_iff, String.toList_ofList, hhex, ← hfits,
    ← Option.isSome_iff_exists, Option.not_isSome_iff_eq_none]

/-- A numeral with a point and with the least exponent that fits. -/
def leastScale : List Char :=
  "A.8P-2147483648".toList

theorem hexadecimal_numeral_least :
    HexNumeral leastScale (-2147483648) ∧
      (∃ value, numeralValue? ('0' :: 'X' :: leastScale) = some value) ∧
      Alone .number (String.ofList ('0' :: 'X' :: leastScale)) ∧
      ∀ encoding source line, parse encoding source ≠
        .error (.faulty ⟨.malformedNumber (String.ofList ('0' :: 'X' :: leastScale)), line⟩) := by
  have hnumeral : HexNumeral leastScale (-2147483648) := by
    have hdigits : HexMantissa ['A', '.', '8'] := hexMantissa_iff.mpr ⟨_, rfl, by decide⟩
    have hpower : SignedDecimal "-2147483648".toList (-2147483648) :=
      integer?_iff.mp (by decide +kernel)
    exact .scaled hdigits (.marked (Or.inr rfl) hpower)
  rcases (hexadecimal_numeral (Or.inr rfl) leastScale).2 _ hnumeral with
    ⟨hvalue, halone, hreport⟩
  have hfirst : StartsIn (IsDigit 16) leastScale := ⟨10, by decide⟩
  refine ⟨hnumeral, hvalue.mpr (by decide), halone hfirst, ?_⟩
  intro encoding source line h
  exact ((hreport encoding source line).mp h).2 (by decide)

/-- A script with a numeral whose exponent is one too large. -/
def overflowing : List Char :=
  "x = 0x1p2147483648".toList

/-- A numeral with a larger exponent has no value, and a script that holds it is refused. -/
theorem hexadecimal_numeral_overflow :
    HexNumeral "1p2147483648".toList 2147483648 ∧
      numeralValue? "0x1p2147483648".toList = none ∧
      parse .utf8 overflowing = .error (.faulty ⟨.malformedNumber "0x1p2147483648", 1⟩) := by
  have hnumeral : HexNumeral "1p2147483648".toList 2147483648 := by
    have hdigits : HexMantissa ['1'] := hexMantissa_iff.mpr ⟨_, rfl, by decide⟩
    have hpower : SignedDecimal "2147483648".toList 2147483648 :=
      integer?_iff.mp (by decide +kernel)
    exact .scaled hdigits (.marked (Or.inl rfl) hpower)
  have hreport : (match parse .utf8 overflowing with
      | .error e => some e
      | .ok _ => none) = some (.faulty ⟨.malformedNumber "0x1p2147483648", 1⟩) := by
    decide +kernel
  have hparse : parse .utf8 overflowing =
      .error (.faulty ⟨.malformedNumber "0x1p2147483648", 1⟩) := by
    cases hparse : parse .utf8 overflowing with
    | error e =>
        rw [hparse] at hreport
        rw [Option.some.inj hreport]
    | ok chunk =>
        rw [hparse] at hreport
        cases hreport
  exact ⟨hnumeral, (malformed_reported_iff.mp hparse).2, hparse⟩

end Lua
end LuaBundle
