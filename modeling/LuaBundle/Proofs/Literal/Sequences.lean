import LuaBundle.Proofs.Literal.Numerals
import LuaBundle.Proofs.Text.Decoding

/-!
# Sequences of up to six bytes

UTF-8 as first defined takes one to six bytes for 31 bits.  The first byte announces how many
follow, so a sequence is read without knowing where it ends, and no sequence starts another.
The bytes written for a code are the fewest that are read as it; for a character they are its
bytes in UTF-8.
-/

namespace LuaBundle
namespace Lua

open Text

/-!
## The format

A lead byte announces the number of continuation bytes, each of which holds six bits of the
code.
-/

/-- A lead byte is a code below 128, or it has as many ones as the sequence has bytes, a zero,
and the highest bits of the code. -/
def IsLead (b : UInt8) (count value : Nat) : Prop :=
  (count = 0 ∧ value < 0x80 ∧ b.toNat = value) ∨
    (1 ≤ count ∧ count ≤ 5 ∧ value < 2 ^ (6 - count) ∧ b.toNat = 0x100 - 2 ^ (7 - count) + value)

instance (b : UInt8) (count value : Nat) : Decidable (IsLead b count value) :=
  inferInstanceAs (Decidable (_ ∨ _))

/-- Continuation bytes, from 0x80 to 0xBF, take a value to a code by six bits each. -/
inductive Accumulates : Nat → Bytes → Nat → Prop where
  | done {value : Nat} : Accumulates value [] value
  | more {value code : Nat} {b : UInt8} {tail : Bytes} :
      0x80 ≤ b.toNat → b.toNat ≤ 0xBF → Accumulates (value * 64 + (b.toNat - 0x80)) tail code →
        Accumulates value (b :: tail) code

/-- A lead byte with the continuation bytes that it announces, and the code they hold. -/
inductive IsSequence : Bytes → Nat → Prop where
  | intro {lead : UInt8} {tail : Bytes} {value code : Nat} :
      IsLead lead tail.length value → Accumulates value tail code → IsSequence (lead :: tail) code

def lead? (b : UInt8) : Option (Nat × Nat) :=
  if b < 0x80 then some (0, b.toNat)
  else if b < 0xC0 then none
  else if b < 0xE0 then some (1, b.toNat - 0xC0)
  else if b < 0xF0 then some (2, b.toNat - 0xE0)
  else if b < 0xF8 then some (3, b.toNat - 0xF0)
  else if b < 0xFC then some (4, b.toNat - 0xF8)
  else if b < 0xFE then some (5, b.toNat - 0xFC)
  else none

/-- Reads a number of continuation bytes, and gives the code and what follows them. -/
def readContinuations : Nat → Nat → Bytes → Option (Nat × Bytes)
  | 0, value, rest => some (value, rest)
  | _ + 1, _, [] => none
  | count + 1, value, b :: rest =>
      if 0x80 ≤ b ∧ b ≤ 0xBF then readContinuations count (value * 64 + (b.toNat - 0x80)) rest
      else none

/-- Reads the sequence that stands in front, and gives its code and what follows it. -/
def readSequence : Bytes → Option (Nat × Bytes)
  | [] => none
  | b :: rest => (lead? b).bind fun (count, value) => readContinuations count value rest

/-!
## Reading a sequence
-/

theorem lead_iff {b : UInt8} {count value : Nat} :
    lead? b = some (count, value) ↔ IsLead b count value := by
  constructor
  · have hread : ∀ n < 256, ∀ found ∈ lead? (UInt8.ofNat n),
        IsLead (UInt8.ofNat n) found.1 found.2 := by
      decide +kernel
    intro h
    have hb := hread b.toNat b.toNat_lt
    rw [UInt8.ofNat_toNat] at hb
    exact hb _ h
  · have hsingle : ∀ value < 0x80, lead? (UInt8.ofNat value) = some (0, value) := by
      decide +kernel
    have hled : ∀ count ≤ 5, 1 ≤ count → ∀ value < 2 ^ (6 - count),
        lead? (UInt8.ofNat (0x100 - 2 ^ (7 - count) + value)) = some (count, value) := by
      decide +kernel
    intro h
    rcases h with ⟨rfl, hvalue, hb⟩ | ⟨hleast, hmost, hvalue, hb⟩
    · rw [← ofNat_eq_byte hb.symm]
      exact hsingle value hvalue
    · rw [← ofNat_eq_byte hb.symm]
      exact hled count hmost hleast value hvalue

theorem read_of_accumulates {value code : Nat} {tail : Bytes} (h : Accumulates value tail code)
    (rest : Bytes) : readContinuations tail.length value (tail ++ rest) = some (code, rest) := by
  induction h with
  | done => rfl
  | @more value code b tail hleast hmost _ ih =>
      have hb : 0x80 ≤ b ∧ b ≤ 0xBF :=
        ⟨UInt8.le_iff_toNat_le.mpr hleast, UInt8.le_iff_toNat_le.mpr hmost⟩
      rw [List.cons_append, List.length_cons, readContinuations, if_pos hb]
      exact ih

theorem accumulates_of_read {count value code : Nat} {bytes rest : Bytes}
    (h : readContinuations count value bytes = some (code, rest)) :
    ∃ tail, bytes = tail ++ rest ∧ tail.length = count ∧ Accumulates value tail code := by
  induction count generalizing value bytes with
  | zero =>
      cases h
      exact ⟨[], rfl, rfl, .done⟩
  | succ count ih =>
      cases bytes with
      | nil => cases h
      | cons b bytes =>
          rw [readContinuations] at h
          split at h
          case isTrue hb =>
              obtain ⟨tail, rfl, hlength, htail⟩ := ih h
              exact ⟨b :: tail, rfl, congrArg (· + 1) hlength,
                .more (UInt8.le_iff_toNat_le.mp hb.1) (UInt8.le_iff_toNat_le.mp hb.2) htail⟩
          case isFalse => cases h

theorem readSequence_iff {input rest : Bytes} {code : Nat} :
    readSequence input = some (code, rest) ↔
      ∃ bytes, input = bytes ++ rest ∧ IsSequence bytes code := by
  constructor
  · intro h
    cases input with
    | nil => cases h
    | cons b input =>
        obtain ⟨⟨count, value⟩, hlead, htail⟩ := Option.bind_eq_some_iff.mp h
        obtain ⟨tail, rfl, rfl, haccumulates⟩ := accumulates_of_read htail
        exact ⟨b :: tail, rfl, .intro (lead_iff.mp hlead) haccumulates⟩
  · rintro ⟨bytes, rfl, hsequence⟩
    cases hsequence with
    | intro hlead htail =>
        rw [List.cons_append, readSequence, lead_iff.mpr hlead, Option.bind_some]
        exact read_of_accumulates htail rest

theorem isSequence_of_read {bytes : Bytes} {code : Nat}
    (h : readSequence bytes = some (code, [])) : IsSequence bytes code := by
  obtain ⟨front, rfl, hsequence⟩ := readSequence_iff.mp h
  rw [List.append_nil]
  exact hsequence

/-!
## Lengths
-/

theorem Accumulates.bounds {value code : Nat} {tail : Bytes} (h : Accumulates value tail code) :
    value * 64 ^ tail.length ≤ code ∧ code < (value + 1) * 64 ^ tail.length := by
  induction h with
  | done => simp
  | @more value code b tail hleast hmost _ ih =>
      rw [List.length_cons, Nat.pow_succ']
      constructor
      · calc value * (64 * 64 ^ tail.length)
            = value * 64 * 64 ^ tail.length := (Nat.mul_assoc _ _ _).symm
          _ ≤ (value * 64 + (b.toNat - 0x80)) * 64 ^ tail.length :=
              Nat.mul_le_mul_right _ (Nat.le_add_right _ _)
          _ ≤ code := ih.1
      · calc code
            < (value * 64 + (b.toNat - 0x80) + 1) * 64 ^ tail.length := ih.2
          _ ≤ (value + 1) * 64 * 64 ^ tail.length := Nat.mul_le_mul_right _ (by omega)
          _ = (value + 1) * (64 * 64 ^ tail.length) := Nat.mul_assoc _ _ _

/-- What a code is taken from is the rest of the code, without the bits of the bytes. -/
theorem Accumulates.value_eq {value code : Nat} {tail : Bytes} (h : Accumulates value tail code) :
    value = code / 64 ^ tail.length :=
  (Nat.div_eq_of_lt_le h.bounds.1 h.bounds.2).symm

theorem Accumulates.unique {value code : Nat} {tail other : Bytes} (h : Accumulates value tail code)
    (h' : Accumulates value other code) (hlength : tail.length = other.length) : tail = other := by
  induction h generalizing other with
  | done => exact (List.length_eq_zero_iff.mp hlength.symm).symm
  | @more value code b tail hleast hmost htail ih =>
      cases h' with
      | done => cases hlength
      | @more _ _ b' other hleast' hmost' hother =>
          have hsame : tail.length = other.length := Nat.succ.inj hlength
          have hvalue := htail.value_eq
          have hvalue' := hother.value_eq
          rw [← hsame] at hvalue'
          have hb : b = b' := by
            apply UInt8.toNat_inj.mp
            omega
          subst hb
          rw [ih hother hsame]

theorem IsSequence.length_le {bytes : Bytes} {code : Nat} (h : IsSequence bytes code) :
    bytes.length ≤ 6 := by
  cases h with
  | intro hlead _ =>
      rw [List.length_cons]
      rcases hlead with ⟨hcount, _⟩ | ⟨_, hcount, _⟩ <;> omega

theorem IsSequence.unique {bytes other : Bytes} {code : Nat} (h : IsSequence bytes code)
    (h' : IsSequence other code) (hlength : bytes.length = other.length) : bytes = other := by
  cases h with
  | @intro lead tail value _ hlead htail =>
      cases h' with
      | @intro lead' tail' value' _ hlead' htail' =>
          have hsame : tail.length = tail'.length := Nat.succ.inj hlength
          have hvalue : value = value' := by
            rw [htail.value_eq, htail'.value_eq, hsame]
          subst hvalue
          rw [← hsame] at hlead'
          have hbyte : lead = lead' := by
            apply UInt8.toNat_inj.mp
            rcases hlead with ⟨hcount, _, hb⟩ | ⟨hcount, _, _, hb⟩ <;>
              rcases hlead' with ⟨hcount', _, hb'⟩ | ⟨hcount', _, _, hb'⟩ <;> omega
          rw [hbyte, htail.unique htail' hsame]

/-!
## The sequence of a code
-/

theorem accumulates_continuations (code n : Nat) :
    Accumulates (code / 64 ^ n) (continuations code n) code := by
  induction n with
  | zero =>
      rw [Nat.pow_zero, Nat.div_one]
      exact .done
  | succ n ih =>
      have hfront : continuations code (n + 1) = continuation code n :: continuations code n := by
        simp [continuations, List.range_succ]
      have hsix : (continuation code n).toNat = 0x80 + code / 64 ^ n % 64 := by
        rw [continuation, Nat.toUInt8, UInt8.toNat_ofNat']
        omega
      have hrest : code / 64 ^ (n + 1) = code / 64 ^ n / 64 := by
        rw [Nat.div_div_eq_div_mul, Nat.pow_succ]
      have hvalue : code / 64 ^ (n + 1) * 64 + ((continuation code n).toNat - 0x80) =
          code / 64 ^ n := by
        omega
      rw [hfront]
      apply Accumulates.more
      · omega
      · omega
      · rw [hvalue]
        exact ih

theorem isSequence_led {code n mark : Nat} (hn : 1 ≤ n) (hn' : n ≤ 5)
    (hmark : mark = 0x100 - 2 ^ (7 - n)) (hfits : code / 64 ^ n < 2 ^ (6 - n)) :
    IsSequence ((mark + code / 64 ^ n).toUInt8 :: continuations code n) code := by
  have hlength : (continuations code n).length = n := by
    simp [continuations]
  have hbyte : (mark + code / 64 ^ n).toUInt8.toNat = mark + code / 64 ^ n := by
    rw [Nat.toUInt8, UInt8.toNat_ofNat']
    interval_cases n <;> omega
  apply IsSequence.intro
  · rw [hlength]
    exact Or.inr ⟨hn, hn', hfits, by rw [hbyte, hmark]⟩
  · exact accumulates_continuations code n

theorem isSequence_utf8Sequence {code : Nat} (h : code < 2 ^ 31) :
    IsSequence (utf8Sequence code) code := by
  unfold utf8Sequence
  split_ifs with h₁ h₂ h₃ h₄ h₅
  · have hbyte : code.toUInt8.toNat = code := by
      rw [Nat.toUInt8, UInt8.toNat_ofNat']
      omega
    exact .intro (Or.inl ⟨rfl, h₁, hbyte⟩) .done
  · rw [← Nat.pow_one 64]
    exact isSequence_led (n := 1) (by decide) (by decide) rfl (by omega)
  · exact isSequence_led (n := 2) (by decide) (by decide) rfl (by omega)
  · exact isSequence_led (n := 3) (by decide) (by decide) rfl (by omega)
  · exact isSequence_led (n := 4) (by decide) (by decide) rfl (by omega)
  · exact isSequence_led (n := 5) (by decide) (by decide) rfl (by omega)

theorem IsSequence.length_ge {bytes : Bytes} {code : Nat} (h : IsSequence bytes code) :
    (utf8Sequence code).length ≤ bytes.length := by
  cases h with
  | @intro lead tail value _ hlead htail =>
      have hbound := htail.bounds.2
      rw [List.length_cons]
      rcases hlead with ⟨hcount, hvalue, _⟩ | ⟨hleast, hmost, hvalue, _⟩
      · rw [hcount, Nat.pow_zero, Nat.mul_one] at hbound
        rw [utf8Sequence, if_pos (by omega), List.length_singleton]
        exact Nat.le_add_left 1 _
      · generalize tail.length = count at hbound hleast hmost hvalue ⊢
        unfold utf8Sequence
        interval_cases count <;> split_ifs <;> simp <;> omega

theorem utf8Sequence_eq_utf8Char (c : Char) : utf8Sequence c.toNat = utf8Char c := by
  have hvalid : c.toNat.isValidChar := c.valid
  have hlarge : c.toNat < 0x110000 := by
    rcases hvalid with h | h <;> omega
  unfold utf8Sequence
  split_ifs with h₁ h₂ h₃ h₄
  · exact (utf8Char_single h₁).symm
  · have hbytes := utf8Char_two (Nat.le_of_not_lt h₁) (Nat.le_of_lt_succ h₂)
    rw [Char.ofNat_toNat] at hbytes
    simp [hbytes, continuation, Nat.add_comm]
  · have hbytes := utf8Char_three (Nat.le_of_not_lt h₂) (Nat.le_of_lt_succ h₃) hvalid
    rw [Char.ofNat_toNat] at hbytes
    simp [hbytes, continuation, List.range_succ, Nat.add_comm]
  · have hbytes := utf8Char_four (Nat.le_of_not_lt h₃) (Nat.le_of_lt_succ hlarge)
    rw [Char.ofNat_toNat] at hbytes
    simp [hbytes, continuation, List.range_succ, Nat.add_comm]
  · omega
  · omega

/-!
## The bytes of an escape
-/

theorem exists_steps {code : Nat} (h : code < 2 ^ 31) :
    ∃ n < 5, (∀ k, 0 < k → k ≤ n → 0x3F / 2 ^ k < code / 64 ^ k) ∧
      code / 64 ^ (n + 1) ≤ 0x3F / 2 ^ (n + 1) := by
  have hlast : code / 64 ^ (4 + 1) ≤ 0x3F / 2 ^ (4 + 1) := by
    omega
  have hexists : ∃ n, code / 64 ^ (n + 1) ≤ 0x3F / 2 ^ (n + 1) := ⟨4, hlast⟩
  refine ⟨Nat.find hexists, ?_, ?_, Nat.find_spec hexists⟩
  · exact Nat.lt_succ_of_le (Nat.find_min' hexists hlast)
  · intro k hpositive hk
    obtain ⟨k, rfl⟩ := Nat.exists_eq_add_one.mpr hpositive
    exact Nat.lt_of_not_le (Nat.find_min hexists hk)

theorem extendedTail_ends {code : UInt32} (h : code.toNat < 2 ^ 31) {fuel : Nat}
    (hfuel : 5 ≤ fuel) : extendedTail fuel code 0x3F [] = extendedTail 6 code 0x3F [] := by
  obtain ⟨n, hn, hmore, hdone⟩ := exists_steps h
  have hstops : ∀ {steps : Nat}, n < steps → extendedTail steps code 0x3F [] = _ :=
    fun hsteps => @extendedTail_stops _ n code 0x3F [] hsteps hmore hdone
  rw [hstops (Nat.lt_of_lt_of_le hn hfuel), hstops (Nat.lt_succ_of_lt hn)]

/-- The 32-bit words in which an escape is computed hold what unbounded numbers would, and the
loop over them ends by its own test.  The bytes are the one shortest sequence of the code, are
read back in front of anything, start no sequence of another code, and are those of the
character with this number, if there is one. -/
theorem extendedUtf8_shortest {code : UInt32} (h : code.toNat < 2 ^ 31) :
    (∀ fuel, 5 ≤ fuel → extendedTail fuel code 0x3F [] = extendedTail 6 code 0x3F []) ∧
      extendedUtf8 code = utf8Sequence code.toNat ∧
      IsSequence (extendedUtf8 code) code.toNat ∧ (extendedUtf8 code).length ≤ 6 ∧
      (∀ bytes, IsSequence bytes code.toNat → bytes ≠ extendedUtf8 code →
        (extendedUtf8 code).length < bytes.length) ∧
      (∀ rest, readSequence (extendedUtf8 code ++ rest) = some (code.toNat, rest)) ∧
      (∀ other : UInt32, other.toNat < 2 ^ 31 → other ≠ code →
        ¬extendedUtf8 code <+: extendedUtf8 other) ∧
      ∀ c : Char, c.val = code → extendedUtf8 code = Encoding.utf8.charBytes c := by
  have heq : ∀ {code : UInt32}, code.toNat < 2 ^ 31 →
      extendedUtf8 code = utf8Sequence code.toNat := by
    intro code hcode
    have hword : code.toNat.toUInt32 = code := toUInt32_eq rfl
    rw [← extendedUtf8_eq hcode, hword]
  have hsequence : ∀ {code : UInt32}, code.toNat < 2 ^ 31 →
      IsSequence (extendedUtf8 code) code.toNat := by
    intro code hcode
    rw [heq hcode]
    exact isSequence_utf8Sequence hcode
  have hread : ∀ rest, readSequence (extendedUtf8 code ++ rest) = some (code.toNat, rest) := by
    intro rest
    exact readSequence_iff.mpr ⟨_, rfl, hsequence h⟩
  constructor
  · exact fun fuel hfuel => extendedTail_ends h hfuel
  constructor
  · exact heq h
  constructor
  · exact hsequence h
  constructor
  · exact (hsequence h).length_le
  constructor
  · intro bytes hbytes hne
    apply Nat.lt_of_le_of_ne
    · rw [heq h]
      exact hbytes.length_ge
    · intro hlength
      exact hne (hbytes.unique (hsequence h) hlength.symm)
  constructor
  · exact hread
  constructor
  · rintro other hother hne ⟨rest, hstart⟩
    have hfound := hread rest
    rw [hstart, readSequence_iff.mpr ⟨_, (List.append_nil _).symm, hsequence hother⟩] at hfound
    exact hne (UInt32.toNat_inj.mp (Prod.ext_iff.mp (Option.some.inj hfound)).1)
  · rintro c rfl
    rw [heq h]
    exact utf8Sequence_eq_utf8Char c

def longEuro : Bytes :=
  [0xF0, 0x82, 0x82, 0xAC]

theorem extendedUtf8_euro :
    (0x20AC : UInt32).toNat < 2 ^ 31 ∧ extendedUtf8 0x20AC = [0xE2, 0x82, 0xAC] ∧
      extendedUtf8 0x20AC = utf8Sequence 0x20AC ∧ IsSequence (extendedUtf8 0x20AC) 0x20AC ∧
      IsSequence longEuro 0x20AC ∧ (extendedUtf8 0x20AC).length < longEuro.length ∧
      readSequence (extendedUtf8 0x20AC ++ [0x82]) = some (0x20AC, [0x82]) ∧
      ¬extendedUtf8 0x20AC <+: extendedUtf8 0x7FFFFFFF ∧
      extendedUtf8 0x20AC = Encoding.utf8.charBytes '€' := by
  have hsmall : (0x20AC : UInt32).toNat < 2 ^ 31 := by decide
  obtain ⟨_, heq, hsequence, _, hshort, hread, hstart, hchar⟩ := extendedUtf8_shortest hsmall
  have hlong : IsSequence longEuro 0x20AC := isSequence_of_read (by decide +kernel)
  have hlonger : (extendedUtf8 0x20AC).length < longEuro.length :=
    hshort longEuro hlong (by decide +kernel)
  exact ⟨hsmall, by decide +kernel, heq, hsequence, hlong, hlonger, hread [0x82],
    hstart 0x7FFFFFFF (by decide) (by decide), hchar '€' rfl⟩

end Lua
end LuaBundle
