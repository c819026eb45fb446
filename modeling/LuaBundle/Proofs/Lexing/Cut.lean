import LuaBundle.Lua.Lexeme

/-!
# Cuts that stay

A lexeme is cut off the front of a text, and what decides where it ends is often only the
part that is cut off.  The lemmas here say, for each kind of cut, that the two parts are the
text again and that the same part is cut off when other text follows it.  A string literal
ends by itself; a name or a number also needs a next character that cannot continue it.
-/

namespace LuaBundle
namespace Lua

open Text

/-!
## Runs of characters
-/

theorem cutWhile_append (inside : Char → Bool) (text : List Char) :
    (cutWhile inside text).1 ++ (cutWhile inside text).2 = text :=
  List.takeWhile_append_dropWhile

def StartsOutside (inside : Char → Bool) (text : List Char) : Prop :=
  ∀ c ∈ text.head?, inside c = false

theorem startsOutside_nil (inside : Char → Bool) : StartsOutside inside [] := by
  intro c hc
  simp at hc

theorem startsOutside_cons {inside : Char → Bool} {c : Char} {rest : List Char} :
    StartsOutside inside (c :: rest) ↔ inside c = false := by
  simp [StartsOutside]

theorem StartsOutside.append {inside : Char → Bool} {front tail : List Char}
    (hfront : StartsOutside inside front) (htail : StartsOutside inside tail) :
    StartsOutside inside (front ++ tail) := by
  cases front with
  | nil => exact htail
  | cons c front => exact startsOutside_cons.mpr (startsOutside_cons.mp hfront)

theorem startsOutside_dropWhile (inside : Char → Bool) (text : List Char) :
    StartsOutside inside (text.dropWhile inside) := by
  intro c hc
  have hhead := List.head?_dropWhile_not inside text
  rw [Option.mem_def.mp hc] at hhead
  simpa using hhead

theorem cutWhile_of_all {inside : Char → Bool} {front rest : List Char}
    (hfront : ∀ c ∈ front, inside c = true) (hrest : StartsOutside inside rest) :
    cutWhile inside (front ++ rest) = (front, rest) := by
  induction front with
  | nil =>
      cases rest with
      | nil => rfl
      | cons c rest =>
          have hc := startsOutside_cons.mp hrest
          simp [cutWhile, hc]
  | cons c front ih =>
      have hc := hfront c (by simp)
      have hmore := ih fun d hd => hfront d (by simp [hd])
      simp only [cutWhile, Prod.mk.injEq] at hmore
      simp [cutWhile, hc, hmore]

theorem all_of_cutWhile {inside : Char → Bool} {text front rest : List Char}
    (h : cutWhile inside text = (front, rest)) :
    (∀ c ∈ front, inside c = true) ∧ StartsOutside inside rest ∧ text = front ++ rest := by
  simp only [cutWhile, Prod.mk.injEq] at h
  rcases h with ⟨rfl, rfl⟩
  refine ⟨?_, startsOutside_dropWhile inside text, List.takeWhile_append_dropWhile.symm⟩
  intro c hc
  have hall := List.all_takeWhile (l := text) (p := inside)
  exact List.all_eq_true.mp hall c hc

/-!
## Quoted strings
-/

theorem cutQuoted_cons {quote c : Char} (passes : Bool) (rest : List Char) (hc : c ≠ '\\') :
    cutQuoted quote passes (c :: rest) =
      if c = quote then some ([c], rest)
      else if c = '\n' ∨ c = '\r' then
        if passes then (cutQuoted quote false rest).map (Cut.after [c]) else none
      else (cutQuoted quote passes rest).map (Cut.after [c]) := by
  cases rest <;> simp [cutQuoted, hc]

theorem cutQuoted_stable {quote : Char} {passes : Bool} {text front rest : List Char}
    (h : cutQuoted quote passes text = some (front, rest)) :
    text = front ++ rest ∧
      ∀ tail, cutQuoted quote passes (front ++ tail) = some (front, tail) := by
  fun_induction cutQuoted quote passes text generalizing front rest with
  | case1 => simp at h
  | case2 => simp at h
  | case3 passes c more ih =>
      rcases Option.map_eq_some_iff.mp h with ⟨⟨inner, after⟩, hcut, heq⟩
      rcases ih hcut with ⟨rfl, hstable⟩
      simp only [Cut.after, Prod.mk.injEq] at heq
      rcases heq with ⟨rfl, rfl⟩
      refine ⟨by simp, ?_⟩
      intro tail
      simp [cutQuoted, hstable, Cut.after]
  | case4 passes more hlone hpair =>
      have hc : quote ≠ '\\' := by
        intro hc
        cases more with
        | nil => exact hlone hc rfl
        | cons d more => exact hpair d more hc rfl
      simp only [Option.some.injEq, Prod.mk.injEq] at h
      rcases h with ⟨rfl, rfl⟩
      refine ⟨rfl, ?_⟩
      intro tail
      simp [cutQuoted_cons, hc]
  | case5 c more hlone hpair hquote hbreak ih =>
      have hc : c ≠ '\\' := by
        intro hc
        simp [hc] at hbreak
      rcases Option.map_eq_some_iff.mp h with ⟨⟨inner, after⟩, hcut, heq⟩
      rcases ih hcut with ⟨rfl, hstable⟩
      simp only [Cut.after, Prod.mk.injEq] at heq
      rcases heq with ⟨rfl, rfl⟩
      refine ⟨rfl, ?_⟩
      intro tail
      simp [cutQuoted_cons, hc, hquote, hbreak, hstable, Cut.after]
  | case6 => simp at h
  | case7 passes c more hlone hpair hquote hbreak ih =>
      have hc : c ≠ '\\' := by
        intro hc
        cases more with
        | nil => exact hlone hc rfl
        | cons d more => exact hpair d more hc rfl
      rcases Option.map_eq_some_iff.mp h with ⟨⟨inner, after⟩, hcut, heq⟩
      rcases ih hcut with ⟨rfl, hstable⟩
      simp only [Cut.after, Prod.mk.injEq] at heq
      rcases heq with ⟨rfl, rfl⟩
      refine ⟨rfl, ?_⟩
      intro tail
      simp [cutQuoted_cons, hc, hquote, hbreak, hstable, Cut.after]

/-!
## Long brackets
-/

theorem isPrefixOf_append_left {closing front : List Char} (rest : List Char)
    (h : closing.length ≤ front.length) :
    closing.isPrefixOf (front ++ rest) = closing.isPrefixOf front := by
  induction closing generalizing front with
  | nil => simp
  | cons c closing ih =>
      cases front with
      | nil => simp at h
      | cons d front =>
          have hmore := @ih front (by simpa using h)
          simp [List.isPrefixOf, hmore]

theorem cutThrough_stable {closing text front rest : List Char} (hclosing : closing ≠ [])
    (h : cutThrough closing text = some (front, rest)) :
    text = front ++ rest ∧ closing.length ≤ front.length ∧
      ∀ tail, cutThrough closing (front ++ tail) = some (front, tail) := by
  induction text generalizing front rest with
  | nil => simp [cutThrough, hclosing] at h
  | cons c more ih =>
      unfold cutThrough at h
      cases hstarts : closing.isPrefixOf (c :: more) with
      | true =>
          rw [if_pos hstarts] at h
          simp only [Option.some.injEq, Prod.mk.injEq] at h
          rcases h with ⟨rfl, rfl⟩
          rcases List.isPrefixOf_iff_prefix.mp hstarts with ⟨after, hafter⟩
          refine ⟨?_, Nat.le_refl _, ?_⟩
          · rw [← hafter]
            simp
          · intro tail
            cases closing with
            | nil => exact absurd rfl hclosing
            | cons d closing => simp [cutThrough]
      | false =>
          rw [if_neg (by simp [hstarts])] at h
          rcases Option.map_eq_some_iff.mp h with ⟨⟨inner, after⟩, hcut, heq⟩
          rcases ih hcut with ⟨rfl, hlength, hstable⟩
          simp only [Cut.after, Prod.mk.injEq] at heq
          rcases heq with ⟨rfl, rfl⟩
          refine ⟨rfl, Nat.le_succ_of_le hlength, ?_⟩
          intro tail
          have hlong : closing.length ≤ (c :: inner).length := Nat.le_succ_of_le hlength
          -- The closing piece ends inside the part cut off, so what follows cannot matter.
          have hstill : closing.isPrefixOf (c :: (inner ++ tail)) = false := by
            have hhere := isPrefixOf_append_left after hlong
            have hthere := isPrefixOf_append_left tail hlong
            simp only [List.cons_append] at hhere hthere
            rw [hthere, ← hhere, hstarts]
          simp [cutThrough, hstill, hstable, Cut.after]

theorem cutWhile_signs_bracket (level : Nat) (rest : List Char) :
    cutWhile (· == '=') (List.replicate level '=' ++ '[' :: rest) =
      (List.replicate level '=', '[' :: rest) := by
  refine cutWhile_of_all ?_ (startsOutside_cons.mpr (by decide))
  intro c hc
  simp [List.eq_of_mem_replicate hc]

/-- What is cut off as a long bracket: signs, a second bracket and what it closes. -/
theorem longBracket_closed {text front rest : List Char}
    (h : longBracket text = .closed (front, rest)) :
    ∃ level contents inside, text = List.replicate level '=' ++ '[' :: contents ∧
      cutThrough (closingBracket level) contents = some (inside, rest) ∧
      front = '[' :: (List.replicate level '=' ++ '[' :: inside) := by
  unfold longBracket at h
  rcases hsigns : cutWhile (· == '=') text with ⟨equals, after⟩
  rcases all_of_cutWhile hsigns with ⟨hall, _, rfl⟩
  rw [hsigns] at h
  have hequals : equals = List.replicate equals.length '=' := by
    refine List.eq_replicate_iff.mpr ⟨rfl, ?_⟩
    intro c hc
    simpa using hall c hc
  cases after with
  | nil => simp at h
  | cons c contents =>
      by_cases hc : c = '['
      · subst hc
        cases hcut : cutThrough (closingBracket equals.length) contents with
        | none => simp [hcut] at h
        | some cut =>
            rcases cut with ⟨inside, after⟩
            simp only [hcut, Cut.after, LongBracket.closed.injEq, Prod.mk.injEq] at h
            rcases h with ⟨rfl, rfl⟩
            exact ⟨equals.length, contents, inside, by rw [← hequals], hcut,
              by rw [← hequals]; simp⟩
      · simp [hc] at h

theorem longBracket_stable {text front rest : List Char}
    (h : longBracket text = .closed (front, rest)) :
    ∃ inner, front = '[' :: inner ∧ text = inner ++ rest ∧
      ∀ tail, longBracket (inner ++ tail) = .closed (front, tail) := by
  rcases longBracket_closed h with ⟨level, contents, inside, rfl, hcut, rfl⟩
  rcases cutThrough_stable (by simp [closingBracket]) hcut with ⟨rfl, _, hstable⟩
  refine ⟨List.replicate level '=' ++ '[' :: inside, rfl, by simp, ?_⟩
  intro tail
  have hsplit := cutWhile_signs_bracket level (inside ++ tail)
  simp [longBracket, hsplit, hstable, Cut.after]

/-!
## Numbers

What continues a number is a character of a name or a point.  The digits of a base and the
mark of its exponent are characters of names, and the three classes keep apart.
-/

def continuesNumber (c : Char) : Bool :=
  isNamePart c || c == '.'

/-- The digits of a base and the mark of an exponent, told apart. -/
structure NumberShape (mark digit : Char → Bool) : Prop where
  digit_continues : ∀ c, digit c = true → isNamePart c = true
  mark_continues : ∀ c, mark c = true → isNamePart c = true
  digit_of_mark : ∀ c, mark c = true → digit c = false
  point : digit '.' = false ∧ mark '.' = false
  suffix : ∀ c ∈ ['L', 'U', 'i'], digit c = false ∧ mark c = false

theorem isAlpha_eq (c : Char) : c.isAlpha = (c.isUpper || c.isLower) :=
  rfl

theorem isUpper_eq (c : Char) : c.isUpper = decide ('A'.val ≤ c.val ∧ c.val ≤ 'Z'.val) :=
  rfl

theorem isLower_eq (c : Char) :
    c.isLower = (decide ('a'.val ≤ c.val) && decide (c.val ≤ 'z'.val)) :=
  rfl

theorem isNamePart_of_isAlphanum {c : Char} (h : c.isAlphanum = true) :
    isNamePart c = true := by
  have hascii : c.toNat < 0x80 := by
    simp only [Char.isAlphanum, isAlpha_eq, isUpper_eq, isLower_eq, Char.isDigit,
      ge_iff_le, Bool.or_eq_true, Bool.and_eq_true, decide_eq_true_eq, UInt32.le_iff_toNat_le] at h
    have hupper : 'Z'.val.toNat = 0x5A := rfl
    have hlower : 'z'.val.toNat = 0x7A := rfl
    simp only [Char.toNat]
    grind
  simp only [Char.isAlphanum, Bool.or_eq_true] at h
  rcases h with h | h <;> simp [isNamePart, isLetter, isNumber, hascii, h]

theorem isNamePart_of_isDigitPart {c : Char} (h : isDigitPart c = true) :
    isNamePart c = true := by
  simp only [isDigitPart, Bool.or_eq_true, beq_iff_eq] at h
  rcases h with h | rfl
  · exact isNamePart_of_isAlphanum (by simp [Char.isAlphanum, h])
  · decide

theorem isNamePart_of_isHexPart {c : Char} (h : isHexPart c = true) :
    isNamePart c = true := by
  simp only [isHexPart, Bool.or_eq_true, Bool.and_eq_true, decide_eq_true_eq, beq_iff_eq,
    Char.le_def, UInt32.le_iff_toNat_le] at h
  rcases h with ((h | h) | h) | rfl
  · exact isNamePart_of_isAlphanum (by simp [Char.isAlphanum, h])
  · refine isNamePart_of_isAlphanum ?_
    have hlower : c.isLower = true := by
      simp only [isLower_eq, Bool.and_eq_true, decide_eq_true_eq, UInt32.le_iff_toNat_le]
      exact ⟨h.1, Nat.le_trans h.2 (by decide)⟩
    simp [Char.isAlphanum, isAlpha_eq, hlower]
  · refine isNamePart_of_isAlphanum ?_
    have hupper : c.isUpper = true := by
      simp only [isUpper_eq, decide_eq_true_eq, UInt32.le_iff_toNat_le]
      exact ⟨h.1, Nat.le_trans h.2 (by decide)⟩
    simp [Char.isAlphanum, isAlpha_eq, hupper]
  · decide

theorem decimalShape : NumberShape (fun c => c == 'e' || c == 'E') isDigitPart where
  digit_continues _ h := isNamePart_of_isDigitPart h
  mark_continues c h := by
    simp only [Bool.or_eq_true, beq_iff_eq] at h
    rcases h with rfl | rfl <;> decide
  digit_of_mark c h := by
    simp only [Bool.or_eq_true, beq_iff_eq] at h
    rcases h with rfl | rfl <;> decide
  point := by decide
  suffix c hc := by
    simp only [List.mem_cons, List.not_mem_nil, or_false] at hc
    rcases hc with rfl | rfl | rfl <;> decide

theorem hexadecimalShape : NumberShape (fun c => c == 'p' || c == 'P') isHexPart where
  digit_continues _ h := isNamePart_of_isHexPart h
  mark_continues c h := by
    simp only [Bool.or_eq_true, beq_iff_eq] at h
    rcases h with rfl | rfl <;> decide
  digit_of_mark c h := by
    simp only [Bool.or_eq_true, beq_iff_eq] at h
    rcases h with rfl | rfl <;> decide
  point := by decide
  suffix c hc := by
    simp only [List.mem_cons, List.not_mem_nil, or_false] at hc
    rcases hc with rfl | rfl | rfl <;> decide

section NumberTail

variable {mark digit : Char → Bool} (shape : NumberShape mark digit)
include shape

theorem NumberShape.digit_outside {tail : List Char}
    (h : StartsOutside continuesNumber tail) : StartsOutside digit tail := by
  intro c hc
  have hcontinues := h c hc
  simp only [continuesNumber, Bool.or_eq_false_iff] at hcontinues
  cases hdigit : digit c with
  | false => rfl
  | true => simp [shape.digit_continues c hdigit] at hcontinues

theorem NumberShape.mark_outside {tail : List Char}
    (h : StartsOutside continuesNumber tail) : StartsOutside mark tail := by
  intro c hc
  have hcontinues := h c hc
  simp only [continuesNumber, Bool.or_eq_false_iff] at hcontinues
  cases hmark : mark c with
  | false => rfl
  | true => simp [shape.mark_continues c hmark] at hcontinues

omit shape in
theorem cutFraction_stable {text front rest : List Char}
    (h : cutFraction digit text = (front, rest)) :
    text = front ++ rest ∧ (∀ c ∈ front.head?, c = '.') ∧
      ∀ tail, StartsOutside digit tail → (front = [] → StartsOutside (· == '.') tail) →
        cutFraction digit (front ++ tail) = (front, tail) := by
  have hplain : ∀ tail : List Char, StartsOutside (· == '.') tail →
      cutFraction digit tail = ([], tail) := by
    intro tail htail
    cases tail with
    | nil => rfl
    | cons c tail =>
        have hc : c ≠ '.' := by simpa [StartsOutside] using htail
        simp [cutFraction, hc]
  cases text with
  | nil =>
      simp only [cutFraction, Prod.mk.injEq] at h
      rcases h with ⟨rfl, rfl⟩
      exact ⟨rfl, by simp, fun tail _ htail => hplain tail (htail rfl)⟩
  | cons c more =>
      by_cases hc : c = '.'
      · subst hc
        rcases hcut : cutWhile digit more with ⟨digits, after⟩
        rcases all_of_cutWhile hcut with ⟨hall, _, rfl⟩
        simp only [cutFraction, hcut, Cut.after, Prod.mk.injEq] at h
        rcases h with ⟨rfl, rfl⟩
        refine ⟨by simp, by simp, ?_⟩
        intro tail htail _
        simp [cutFraction, cutWhile_of_all hall htail, Cut.after]
      · rw [hplain _ (startsOutside_cons.mpr (by simpa using hc)), Prod.mk.injEq] at h
        rcases h with ⟨rfl, rfl⟩
        exact ⟨rfl, by simp, fun tail _ htail => hplain tail (htail rfl)⟩

omit shape in
theorem cutExponent_of_outside {tail : List Char} (h : StartsOutside mark tail) :
    cutExponent mark digit tail = ([], tail) := by
  cases tail with
  | nil => rfl
  | cons c tail =>
      have hc := startsOutside_cons.mp h
      simp [cutExponent, hc]

omit shape in
theorem cutSign_append {text sign rest : List Char} (h : cutSign text = (sign, rest)) :
    text = sign ++ rest ∧
      (sign = [] ∨ sign = ['+'] ∨ sign = ['-']) := by
  unfold cutSign at h
  split at h <;> simp only [Prod.mk.injEq] at h <;> rcases h with ⟨rfl, rfl⟩ <;> simp

omit shape in
theorem cutSign_digit {digits tail : List Char} {c : Char} (hplus : c ≠ '+') (hminus : c ≠ '-') :
    cutSign (c :: digits ++ tail) = ([], c :: digits ++ tail) := by
  simp [cutSign, hplus, hminus]

theorem cutExponent_stable {text front rest : List Char}
    (h : cutExponent mark digit text = (front, rest)) :
    text = front ++ rest ∧ (∀ c ∈ front.head?, mark c = true) ∧
      ∀ tail, StartsOutside digit tail → (front = [] → StartsOutside mark tail) →
        cutExponent mark digit (front ++ tail) = (front, tail) := by
  cases text with
  | nil =>
      simp only [cutExponent, Prod.mk.injEq] at h
      rcases h with ⟨rfl, rfl⟩
      exact ⟨rfl, by simp, fun tail _ htail => cutExponent_of_outside (htail rfl)⟩
  | cons c more =>
      rcases hsign : cutSign more with ⟨sign, afterSign⟩
      rcases hcut : cutWhile digit afterSign with ⟨digits, afterDigits⟩
      rcases cutSign_append hsign with ⟨rfl, hsigns⟩
      rcases all_of_cutWhile hcut with ⟨hall, _, rfl⟩
      simp only [cutExponent, hsign, hcut] at h
      split at h
      · rename_i hmark
        simp only [Bool.and_eq_true, Bool.not_eq_true', List.isEmpty_eq_false_iff] at hmark
        simp only [Prod.mk.injEq] at h
        rcases h with ⟨rfl, rfl⟩
        refine ⟨by simp, by simp [hmark.1], ?_⟩
        intro tail htail _
        have hagain : cutSign (sign ++ (digits ++ tail)) = (sign, digits ++ tail) := by
          rcases hsigns with rfl | rfl | rfl
          · rcases List.exists_cons_of_ne_nil hmark.2 with ⟨d, digits, rfl⟩
            have hd := hall d (by simp)
            -- A sign that the digits started with would have been cut off already.
            have hd' := shape.digit_continues d hd
            refine cutSign_digit ?_ ?_ <;> rintro rfl <;> exact absurd hd' (by decide)
          · rfl
          · rfl
        simp [cutExponent, hagain, cutWhile_of_all hall htail, hmark]
      · simp only [Prod.mk.injEq] at h
        rcases h with ⟨rfl, rfl⟩
        exact ⟨rfl, by simp, fun tail _ htail => cutExponent_of_outside (htail rfl)⟩

omit shape in
theorem cutSuffix_of_outside {tail : List Char} (h : StartsOutside continuesNumber tail) :
    cutSuffix tail = ([], tail) := by
  unfold cutSuffix
  split
  · exact absurd (startsOutside_cons.mp h) (by decide)
  · exact absurd (startsOutside_cons.mp h) (by decide)
  · exact absurd (startsOutside_cons.mp h) (by decide)
  · rfl

omit shape in
theorem cutSuffix_stable {text front rest : List Char} (h : cutSuffix text = (front, rest)) :
    text = front ++ rest ∧ (∀ c ∈ front.head?, c ∈ ['L', 'U', 'i']) ∧
      ∀ tail, StartsOutside continuesNumber tail →
        cutSuffix (front ++ tail) = (front, tail) := by
  unfold cutSuffix at h
  split at h <;> simp only [Prod.mk.injEq] at h <;> rcases h with ⟨rfl, rfl⟩
  · exact ⟨rfl, by simp, fun tail _ => rfl⟩
  · exact ⟨rfl, by simp, fun tail _ => rfl⟩
  · exact ⟨rfl, by simp, fun tail _ => rfl⟩
  · exact ⟨rfl, by simp, fun tail htail => cutSuffix_of_outside htail⟩

theorem cutNumberTail_stable {text front rest : List Char}
    (h : cutNumberTail mark digit text = (front, rest)) :
    text = front ++ rest ∧ StartsOutside digit front ∧
      ∀ tail, StartsOutside continuesNumber tail →
        cutNumberTail mark digit (front ++ tail) = (front, tail) := by
  rcases hfraction : cutFraction digit text with ⟨fraction, afterFraction⟩
  rcases hexponent : cutExponent mark digit afterFraction with ⟨exponent, afterExponent⟩
  rcases hsuffix : cutSuffix afterExponent with ⟨suffix, afterSuffix⟩
  simp only [cutNumberTail, hfraction, hexponent, hsuffix, Prod.mk.injEq] at h
  rcases h with ⟨rfl, rfl⟩
  rcases cutFraction_stable hfraction with ⟨rfl, hpoint, hfraction'⟩
  rcases cutExponent_stable shape hexponent with ⟨rfl, hmark, hexponent'⟩
  rcases cutSuffix_stable hsuffix with ⟨rfl, hletters, hsuffix'⟩
  -- Each part starts with a character that the parts before it cannot take in.
  have hfractionDigit : StartsOutside digit fraction := by
    intro c hc
    rw [hpoint c hc]
    exact shape.point.1
  have hexponentDigit : StartsOutside digit exponent :=
    fun c hc => shape.digit_of_mark c (hmark c hc)
  have hexponentPoint : StartsOutside (· == '.') exponent := by
    intro c hc
    rw [beq_eq_false_iff_ne]
    rintro rfl
    exact absurd (hmark _ hc) (by simp [shape.point.2])
  have hsuffixDigit : StartsOutside digit suffix :=
    fun c hc => (shape.suffix c (hletters c hc)).1
  have hsuffixMark : StartsOutside mark suffix :=
    fun c hc => (shape.suffix c (hletters c hc)).2
  have hsuffixPoint : StartsOutside (· == '.') suffix := by
    intro c hc
    have hletter := hletters c hc
    rw [beq_eq_false_iff_ne]
    rintro rfl
    exact absurd hletter (by decide)
  refine ⟨by simp, (hfractionDigit.append hexponentDigit).append hsuffixDigit, ?_⟩
  intro tail htail
  have hdigit := shape.digit_outside htail
  have hpoint' : StartsOutside (· == '.') tail :=
    fun c hc => (Bool.or_eq_false_iff.mp (htail c hc)).2
  have hcutExponent : cutExponent mark digit (exponent ++ (suffix ++ tail)) =
      (exponent, suffix ++ tail) :=
    hexponent' _ (hsuffixDigit.append hdigit) fun _ =>
      hsuffixMark.append (shape.mark_outside htail)
  have hcutFraction : cutFraction digit (fraction ++ (exponent ++ (suffix ++ tail))) =
      (fraction, exponent ++ (suffix ++ tail)) :=
    hfraction' _ (hexponentDigit.append (hsuffixDigit.append hdigit)) fun _ =>
      hexponentPoint.append (hsuffixPoint.append hpoint')
  simp [cutNumberTail, hcutFraction, hcutExponent, hsuffix' _ htail]

end NumberTail

theorem cutDecimal_stable {text front rest : List Char}
    (h : cutDecimal text = (front, rest)) :
    text = front ++ rest ∧
      ∀ tail, StartsOutside continuesNumber tail →
        cutDecimal (front ++ tail) = (front, tail) := by
  rcases hwhole : cutWhile isDigitPart text with ⟨whole, afterWhole⟩
  rcases hmore : cutNumberTail (fun c => c == 'e' || c == 'E') isDigitPart afterWhole with
    ⟨more, after⟩
  rcases all_of_cutWhile hwhole with ⟨hall, _, rfl⟩
  rcases cutNumberTail_stable decimalShape hmore with ⟨rfl, hhead, hstable⟩
  simp only [cutDecimal, hwhole, hmore, Cut.after, Prod.mk.injEq] at h
  rcases h with ⟨rfl, rfl⟩
  refine ⟨by simp, ?_⟩
  intro tail htail
  have houtside : StartsOutside isDigitPart (more ++ tail) :=
    hhead.append (decimalShape.digit_outside htail)
  simp [cutDecimal, cutWhile_of_all hall houtside, hstable tail htail, Cut.after]

theorem cutHexadecimal_stable {x : Char} {text front rest : List Char}
    (h : cutHexadecimal x text = some (front, rest)) :
    ∃ digits, front = '0' :: x :: digits ∧ text = digits ++ rest ∧
      ∀ tail, StartsOutside continuesNumber tail →
        cutHexadecimal x (digits ++ tail) = some (front, tail) := by
  rcases hwhole : cutWhile isHexPart text with ⟨whole, afterWhole⟩
  rcases hmore : cutNumberTail (fun c => c == 'p' || c == 'P') isHexPart afterWhole with
    ⟨more, after⟩
  rcases all_of_cutWhile hwhole with ⟨hall, _, rfl⟩
  rcases cutNumberTail_stable hexadecimalShape hmore with ⟨rfl, hhead, hstable⟩
  cases whole with
  | nil =>
      rw [List.nil_append] at hwhole
      simp [cutHexadecimal, hwhole] at h
  | cons d whole =>
      simp only [cutHexadecimal, hwhole, hmore, Cut.after, List.isEmpty_cons, Bool.false_eq_true,
        if_false, Option.some.injEq, Prod.mk.injEq] at h
      rcases h with ⟨rfl, rfl⟩
      refine ⟨d :: whole ++ more, by simp, by simp, ?_⟩
      intro tail htail
      have houtside : StartsOutside isHexPart (more ++ tail) :=
        hhead.append (hexadecimalShape.digit_outside htail)
      have hcut := cutWhile_of_all hall houtside
      simp only [List.cons_append] at hcut
      simp [cutHexadecimal, hcut, hstable tail htail, Cut.after]

theorem cutNumber_of_digit {c : Char} {rest : List Char} (hc : c.isDigit = true)
    (hrest : c = '0' → ∀ x ∈ rest.head?, x ≠ 'x' ∧ x ≠ 'X') :
    cutNumber (c :: rest) = some (cutDecimal (c :: rest)) := by
  have hpoint : c ≠ '.' := by
    rintro rfl
    exact absurd hc (by decide)
  by_cases hzero : c = '0'
  · subst hzero
    cases rest with
    | nil => rfl
    | cons x rest =>
        have hx := hrest rfl x (by simp)
        simp [cutNumber, hx]
  · cases rest <;> simp [cutNumber, hzero, hpoint, hc]

inductive NumberCut : List Char → Cut → Prop where
  | decimal {c rest} (hc : c.isDigit = true)
      (hrest : c = '0' → ∀ x ∈ rest.head?, x ≠ 'x' ∧ x ≠ 'X') :
      NumberCut (c :: rest) (cutDecimal (c :: rest))
  | point {d rest} (hd : d.isDigit = true) :
      NumberCut ('.' :: d :: rest) (cutDecimal ('.' :: d :: rest))
  /-- Where no digits follow the mark, the zero before it is the number. -/
  | zero {x rest} (hx : x = 'x' ∨ x = 'X') (h : cutHexadecimal x rest = none) :
      NumberCut ('0' :: x :: rest) (['0'], x :: rest)
  | hexadecimal {x rest cut} (hx : x = 'x' ∨ x = 'X') (h : cutHexadecimal x rest = some cut) :
      NumberCut ('0' :: x :: rest) cut

theorem numberCut_of_cutNumber {text : List Char} {cut : Cut} (h : cutNumber text = some cut) :
    NumberCut text cut := by
  unfold cutNumber at h
  split at h
  · rename_i x rest
    split at h
    · rename_i hx
      cases hcut : cutHexadecimal x rest with
      | none =>
          rw [hcut] at h
          cases h
          exact .zero hx hcut
      | some inner =>
          rw [hcut] at h
          cases h
          exact .hexadecimal hx hcut
    · rename_i hx
      cases h
      refine .decimal (by decide) fun _ y hy => ?_
      cases hy
      exact not_or.mp hx
  · split at h
    · rename_i hd
      cases h
      exact .point hd
    · cases h
  · rename_i c rest hmark _
    split at h
    · rename_i hc
      cases h
      refine .decimal hc fun hzero y hy => ?_
      cases rest with
      | nil => cases hy
      | cons x rest => exact absurd rfl (hmark x rest hzero)
    · cases h
  · cases h

theorem exists_cons_of_cutDecimal {c : Char} {more front rest : List Char}
    (hc : c.isDigit = true) (h : cutDecimal (c :: more) = (front, rest)) :
    ∃ digits, front = c :: digits := by
  have hpart : isDigitPart c = true := by simp [isDigitPart, hc]
  simp only [cutDecimal, cutWhile, List.takeWhile_cons, hpart, Cut.after, if_true,
    List.cons_append, Prod.mk.injEq] at h
  exact ⟨_, h.1.symm⟩

theorem exists_cons_of_cutDecimal_point {d : Char} {more front rest : List Char}
    (hd : d.isDigit = true) (h : cutDecimal ('.' :: d :: more) = (front, rest)) :
    ∃ digits, front = '.' :: d :: digits := by
  have hpart : isDigitPart d = true := by simp [isDigitPart, hd]
  have hpoint : isDigitPart '.' = false := by decide
  simp only [cutDecimal, cutWhile, List.takeWhile_cons, hpoint, List.dropWhile_cons,
    cutNumberTail, cutFraction, hpart, Cut.after, Prod.mk.injEq, Bool.false_eq_true, if_false,
    if_true, List.nil_append, List.cons_append] at h
  exact ⟨_, h.1.symm⟩

/-- What cannot continue a number does not make a zero the start of a hexadecimal one. -/
theorem not_mark_of_startsOutside {tail : List Char} (h : StartsOutside continuesNumber tail) :
    ∀ x ∈ tail.head?, x ≠ 'x' ∧ x ≠ 'X' := by
  intro x hx
  have hcontinues := h x hx
  constructor <;> rintro rfl <;> exact absurd hcontinues (by decide)

/-- A number is cut off the same whatever follows that cannot continue it. -/
theorem cutNumber_stable {text front rest : List Char}
    (h : cutNumber text = some (front, rest)) :
    text = front ++ rest ∧
      ∀ tail, StartsOutside continuesNumber tail →
        cutNumber (front ++ tail) = some (front, tail) := by
  generalize hcut : (front, rest) = cut at h
  cases numberCut_of_cutNumber h with
  | decimal hc hrest =>
      rcases cutDecimal_stable hcut.symm with ⟨hsplit, hstable⟩
      rcases exists_cons_of_cutDecimal hc hcut.symm with ⟨digits, rfl⟩
      refine ⟨hsplit, fun tail htail => ?_⟩
      rw [List.cons_append, cutNumber_of_digit hc, ← List.cons_append, hstable tail htail]
      -- Behind the first digit stands more of the number or what follows it.
      intro hzero x hx
      cases digits with
      | nil => exact not_mark_of_startsOutside htail x hx
      | cons y digits =>
          rw [(List.cons.inj hsplit).2] at hrest
          exact hrest hzero x hx
  | point hd =>
      rcases cutDecimal_stable hcut.symm with ⟨hsplit, hstable⟩
      rcases exists_cons_of_cutDecimal_point hd hcut.symm with ⟨digits, rfl⟩
      refine ⟨hsplit, fun tail htail => ?_⟩
      rw [← hstable tail htail]
      exact if_pos hd
  | zero hx hnone =>
      cases hcut
      have hzero : cutDecimal ['0'] = (['0'], []) := by decide
      refine ⟨rfl, fun tail htail => ?_⟩
      rw [List.cons_append, List.nil_append,
        cutNumber_of_digit (by decide) fun _ => not_mark_of_startsOutside htail]
      exact congrArg some ((cutDecimal_stable hzero).2 tail htail)
  | hexadecimal hx hinner =>
      subst hcut
      rcases cutHexadecimal_stable hinner with ⟨digits, rfl, rfl, hstable⟩
      refine ⟨rfl, fun tail htail => ?_⟩
      simp [cutNumber, hx, hstable tail htail]

end Lua
end LuaBundle
