import Mathlib.Algebra.Group.Nat.Defs
import Mathlib.Tactic.ByContra
import LuaBundle.Text.Utf8

/-!
# Texts of byte strings

Decoding takes the bytes of a character off the front of a byte string, or bytes that are not
UTF-8.  So a text that bytes are strictly read as has just these bytes, a character below 128 in a
text is a byte of its own, and different byte strings have one text only where one of them is not
UTF-8.
-/

namespace LuaBundle
namespace Text

/-!
## Steps of decoding
-/

theorem decode_start (b : UInt8) (rest : Bytes) :
    (b < 0x80 ∧ decodeFrom none (b :: rest) = some (Char.ofNat b.toNat) :: decodeFrom none rest) ∨
      (∃ p, Pending.ofLead b = some p ∧
        decodeFrom none (b :: rest) = decodeFrom (some p) rest) ∨
      decodeFrom none (b :: rest) = none :: decodeFrom none rest := by
  rw [decodeFrom]
  by_cases hsingle : b < 0x80
  case pos => exact Or.inl ⟨hsingle, if_pos hsingle⟩
  case neg =>
    simp only [if_neg hsingle]
    cases hlead : Pending.ofLead b with
    | some p => exact Or.inr (Or.inl ⟨p, rfl, rfl⟩)
    | none => exact Or.inr (Or.inr rfl)

/-- A sequence under way comes to a number by further bytes. -/
inductive Pending.Reaches : Pending → Bytes → Nat → Prop where
  | last {p b} (haccepts : p.accepts b = true) (howed : p.owedAfter = 0) :
      Pending.Reaches p [b] (p.valueWith b)
  | next {p b n used v} (haccepts : p.accepts b = true) (howed : p.owedAfter = n + 1)
      (hrest : Pending.Reaches ⟨p.valueWith b, n, 0x80, 0xBF⟩ used v) :
      Pending.Reaches p (b :: used) v

theorem decode_sequence (p : Pending) (bytes : Bytes) :
    ∃ used rest, bytes = used ++ rest ∧
      ((∃ v, p.Reaches used v ∧
          decodeFrom (some p) bytes = some (Char.ofNat v) :: decodeFrom none rest) ∨
        decodeFrom (some p) bytes = none :: decodeFrom none rest) := by
  induction bytes generalizing p with
  | nil => exact ⟨[], [], rfl, Or.inr rfl⟩
  | cons b rest ih =>
      cases haccepts : p.accepts b with
      | false =>
          refine ⟨[], b :: rest, rfl, Or.inr ?_⟩
          rw [decodeFrom, decodeFrom]
          simp only [haccepts, Bool.false_eq_true, if_false]
      | true =>
          cases howed : p.owedAfter with
          | zero =>
              refine ⟨[b], rest, rfl, Or.inl ⟨_, .last haccepts howed, ?_⟩⟩
              rw [decodeFrom]
              simp only [haccepts, if_true, howed]
          | succ n =>
              have hstep : decodeFrom (some p) (b :: rest) =
                  decodeFrom (some ⟨p.valueWith b, n, 0x80, 0xBF⟩) rest := by
                rw [decodeFrom]
                simp only [haccepts, if_true, howed]
              rcases ih ⟨p.valueWith b, n, 0x80, 0xBF⟩ with
                ⟨used, rest, rfl, ⟨v, hreaches, hdecoded⟩ | hdecoded⟩
              · exact ⟨b :: used, rest, rfl,
                  Or.inl ⟨v, .next haccepts howed hreaches, hstep.trans hdecoded⟩⟩
              · exact ⟨b :: used, rest, rfl, Or.inr (hstep.trans hdecoded)⟩

/-!
## Characters of sequences
-/

/-- What a byte starts: the number in it, and bounds that keep out longer spellings of a
number, surrogates and what is beyond the last character. -/
def Pending.IsLed (p : Pending) (b : Nat) : Prop :=
  0x80 ≤ p.low.toNat ∧ p.high.toNat ≤ 0xBF ∧
    ((p.owedAfter = 0 ∧ 0xC2 ≤ b ∧ b ≤ 0xDF ∧ p.value = b - 0xC0) ∨
      (p.owedAfter = 1 ∧ 0xE0 ≤ b ∧ b ≤ 0xEF ∧ p.value = b - 0xE0 ∧
        (b = 0xE0 → 0xA0 ≤ p.low.toNat) ∧ (b = 0xED → p.high.toNat ≤ 0x9F)) ∨
      (p.owedAfter = 2 ∧ 0xF0 ≤ b ∧ b ≤ 0xF4 ∧ p.value = b - 0xF0 ∧
        (b = 0xF0 → 0x90 ≤ p.low.toNat) ∧ (b = 0xF4 → p.high.toNat ≤ 0x8F)))

instance (p : Pending) (b : Nat) : Decidable (p.IsLed b) :=
  inferInstanceAs (Decidable (_ ∧ _))

theorem Pending.isLed_of_lead {b : UInt8} {p : Pending} (h : Pending.ofLead b = some p) :
    p.IsLed b.toNat := by
  have hall : ∀ n < 256, ∀ q ∈ Pending.ofLead (UInt8.ofNat n), q.IsLed n := by
    decide +kernel
  refine hall b.toNat b.toNat_lt p ?_
  rw [UInt8.ofNat_toNat]
  exact h

theorem ofNat_val {v : Nat} (h : v.isValidChar) : (Char.ofNat v).val.toNat = v := by
  rw [Char.ofNat, dif_pos h]
  rfl

theorem ofNat_eq_byte {b : UInt8} {n : Nat} (h : n = b.toNat) : UInt8.ofNat n = b := by
  rw [h, UInt8.ofNat_toNat]

theorem utf8Char_two {v : Nat} (h : 0x80 ≤ v) (h' : v ≤ 0x7FF) :
    utf8Char (Char.ofNat v) = [UInt8.ofNat (v / 64 + 0xC0), UInt8.ofNat (v % 64 + 0x80)] := by
  have hv : (Char.ofNat v).val.toNat = v := ofNat_val (Or.inl (by omega))
  have hlead : v / 64 % 32 = v / 64 := by omega
  simp only [utf8Char, String.utf8EncodeChar, hv]
  rw [if_neg (by omega), if_pos h', hlead]

theorem utf8Char_three {v : Nat} (h : 0x800 ≤ v) (h' : v ≤ 0xFFFF) (hvalid : v.isValidChar) :
    utf8Char (Char.ofNat v) = [UInt8.ofNat (v / 4096 + 0xE0), UInt8.ofNat (v / 64 % 64 + 0x80),
      UInt8.ofNat (v % 64 + 0x80)] := by
  have hlead : v / 4096 % 16 = v / 4096 := by omega
  simp only [utf8Char, String.utf8EncodeChar, ofNat_val hvalid]
  rw [if_neg (by omega), if_neg (by omega), if_pos h', hlead]

theorem utf8Char_four {v : Nat} (h : 0x10000 ≤ v) (h' : v ≤ 0x10FFFF) :
    utf8Char (Char.ofNat v) = [UInt8.ofNat (v / 262144 + 0xF0), UInt8.ofNat (v / 4096 % 64 + 0x80),
      UInt8.ofNat (v / 64 % 64 + 0x80), UInt8.ofNat (v % 64 + 0x80)] := by
  have hv : (Char.ofNat v).val.toNat = v := ofNat_val (Or.inr ⟨by omega, by omega⟩)
  have hlead : v / 262144 % 8 = v / 262144 := by omega
  simp only [utf8Char, String.utf8EncodeChar, hv]
  rw [if_neg (by omega), if_neg (by omega), if_neg (by omega), hlead]

theorem Pending.le_of_accepts {p : Pending} {b : UInt8} (h : p.accepts b = true) :
    p.low.toNat ≤ b.toNat ∧ b.toNat ≤ p.high.toNat := by
  simpa [Pending.accepts, UInt8.le_iff_toNat_le] using h

theorem Pending.Reaches.of_zero {p : Pending} {used : Bytes} {v : Nat} (h : p.Reaches used v)
    (howed : p.owedAfter = 0) : ∃ b, used = [b] ∧ v = p.value * 64 + (b.toNat - 0x80) ∧
      p.low.toNat ≤ b.toNat ∧ b.toNat ≤ p.high.toNat := by
  cases h with
  | next _ howed' _ => omega
  | @last _ b haccepts _ => exact ⟨b, rfl, rfl, Pending.le_of_accepts haccepts⟩

theorem Pending.Reaches.of_succ {p : Pending} {used : Bytes} {v n : Nat} (h : p.Reaches used v)
    (howed : p.owedAfter = n + 1) :
    ∃ b rest, used = b :: rest ∧ p.low.toNat ≤ b.toNat ∧ b.toNat ≤ p.high.toNat ∧
      Pending.Reaches ⟨p.value * 64 + (b.toNat - 0x80), n, 0x80, 0xBF⟩ rest v := by
  cases h with
  | last _ howed' => omega
  | @next _ b m used _ haccepts howed' hrest =>
      rcases Pending.le_of_accepts haccepts with ⟨hleast, hmost⟩
      have hsame : m = n := by omega
      subst hsame
      exact ⟨b, used, rfl, hleast, hmost, hrest⟩

theorem utf8Char_of_reaches {b : UInt8} {p : Pending} (hlead : Pending.ofLead b = some p)
    {used : Bytes} {v : Nat} (h : p.Reaches used v) : utf8Char (Char.ofNat v) = b :: used := by
  have hlow : UInt8.toNat 0x80 = 0x80 := rfl
  have hhigh : UInt8.toNat 0xBF = 0xBF := rfl
  rcases Pending.isLed_of_lead hlead with ⟨hleast, hmost, hled⟩
  rcases hled with ⟨howed, hfrom, hto, hvalue⟩ | ⟨howed, hfrom, hto, hvalue, hlong, hplain⟩ |
    ⟨howed, hfrom, hto, hvalue, hlong, hlast⟩
  · rcases h.of_zero howed with ⟨b₁, rfl, hv, hfrom₁, hto₁⟩
    rw [utf8Char_two (by omega) (by omega), ofNat_eq_byte (b := b) (by omega),
      ofNat_eq_byte (b := b₁) (by omega)]
  · rcases h.of_succ howed with ⟨b₁, rest, rfl, hfrom₁, hto₁, hrest⟩
    rcases hrest.of_zero rfl with ⟨b₂, rfl, hv, hfrom₂, hto₂⟩
    simp only [hlow, hhigh] at hv hfrom₂ hto₂
    have hvalid : v.isValidChar := by
      unfold Nat.isValidChar
      omega
    rw [utf8Char_three (by omega) (by omega) hvalid, ofNat_eq_byte (b := b) (by omega),
      ofNat_eq_byte (b := b₁) (by omega), ofNat_eq_byte (b := b₂) (by omega)]
  · rcases h.of_succ howed with ⟨b₁, rest, rfl, hfrom₁, hto₁, hrest⟩
    rcases hrest.of_succ rfl with ⟨b₂, rest, rfl, hfrom₂, hto₂, hrest⟩
    rcases hrest.of_zero rfl with ⟨b₃, rfl, hv, hfrom₃, hto₃⟩
    simp only [hlow, hhigh] at hv hfrom₂ hto₂ hfrom₃ hto₃
    rw [utf8Char_four (by omega) (by omega), ofNat_eq_byte (b := b) (by omega),
      ofNat_eq_byte (b := b₁) (by omega), ofNat_eq_byte (b := b₂) (by omega),
      ofNat_eq_byte (b := b₃) (by omega)]

theorem utf8Char_single {c : Char} (h : c.toNat < 0x80) : utf8Char c = [UInt8.ofNat c.toNat] := by
  have hsingle : c.val.toNat ≤ 0x7F := Nat.le_of_lt_succ h
  rw [utf8Char, String.utf8EncodeChar, if_pos hsingle]
  rfl

theorem ofNat_byte {c : Char} (h : c.toNat < 0x80) :
    Char.ofNat (UInt8.ofNat c.toNat).toNat = c := by
  rw [UInt8.toNat_ofNat', Nat.mod_eq_of_lt (by omega), Char.ofNat_toNat]

/-- Decoding takes the bytes of a character off the front, or bytes that are not UTF-8. -/
theorem decode_cons (b : UInt8) (bytes : Bytes) :
    ∃ front rest, b :: bytes = front ++ rest ∧ front ≠ [] ∧
      ((∃ c, utf8Char c = front ∧
          decodeFrom none (b :: bytes) = some c :: decodeFrom none rest) ∨
        decodeFrom none (b :: bytes) = none :: decodeFrom none rest) := by
  rcases decode_start b bytes with ⟨hsingle, hstep⟩ | ⟨p, hlead, hstep⟩ | hstep
  · have hlt : b.toNat < 0x80 := hsingle
    have hvalue : (Char.ofNat b.toNat).toNat = b.toNat := ofNat_val (Or.inl (by omega))
    refine ⟨[b], bytes, rfl, List.cons_ne_nil _ _, Or.inl ⟨_, ?_, hstep⟩⟩
    rw [utf8Char_single (by omega), hvalue, UInt8.ofNat_toNat]
  · rcases decode_sequence p bytes with ⟨used, rest, rfl, ⟨v, hreaches, hdecoded⟩ | hdecoded⟩
    · exact ⟨b :: used, rest, rfl, List.cons_ne_nil _ _,
        Or.inl ⟨_, utf8Char_of_reaches hlead hreaches, hstep.trans hdecoded⟩⟩
    · exact ⟨b :: used, rest, rfl, List.cons_ne_nil _ _, Or.inr (hstep.trans hdecoded)⟩
  · exact ⟨[b], bytes, rfl, List.cons_ne_nil _ _, Or.inr hstep⟩

/-!
## Strict and lossy reading
-/

theorem ofUtf8_eq_some {bytes : Bytes} {text : List Char} :
    ofUtf8? bytes = some text ↔ decodeFrom none bytes = text.map some := by
  rw [ofUtf8?]
  generalize decodeFrom none bytes = decoded
  induction decoded generalizing text with
  | nil => cases text <;> simp
  | cons c rest ih =>
      cases text with
      | nil => cases c <;> simp [Option.bind_eq_some_iff]
      | cons d text =>
          cases c with
          | none => simp
          | some c =>
              simp only [List.mapM_cons, id, Option.bind_eq_bind, Option.bind_eq_some_iff,
                Option.pure_def, Option.some.injEq, List.cons.injEq, ih, List.map_cons]
              constructor
              · rintro ⟨_, rfl, _, hrest, rfl, rfl⟩
                exact ⟨rfl, hrest⟩
              · rintro ⟨rfl, hrest⟩
                exact ⟨c, rfl, text, hrest, rfl, rfl⟩

theorem utf8_of_decoded (text : List Char) {bytes : Bytes}
    (h : decodeFrom none bytes = text.map some) : utf8 text = bytes := by
  induction text generalizing bytes with
  | nil =>
      cases bytes with
      | nil => rfl
      | cons b bytes =>
          rcases decode_cons b bytes with ⟨front, rest, _, _, ⟨c, _, hstep⟩ | hstep⟩
          all_goals cases hstep.symm.trans h
  | cons c text ih =>
      cases bytes with
      | nil => cases h
      | cons b bytes =>
          rcases decode_cons b bytes with ⟨front, rest, hsplit, _, ⟨d, hd, hstep⟩ | hstep⟩
          · rcases List.cons.inj (hstep.symm.trans h) with ⟨hc, hrest⟩
            rw [hsplit, utf8, List.flatMap_cons, ← utf8, ih hrest, ← hd, Option.some.inj hc]
          · cases hstep.symm.trans h

theorem ofUtf8_cons {bytes : Bytes} {c : Char} {text : List Char}
    (h : ofUtf8? bytes = some (c :: text)) (hsingle : c.toNat < 0x80) :
    ∃ rest, bytes = UInt8.ofNat c.toNat :: rest ∧ ofUtf8? rest = some text := by
  rw [ofUtf8_eq_some, List.map_cons] at h
  cases bytes with
  | nil => cases h
  | cons b bytes =>
      rcases decode_cons b bytes with ⟨front, rest, hsplit, _, ⟨d, hd, hstep⟩ | hstep⟩
      · rcases List.cons.inj (hstep.symm.trans h) with ⟨hc, hrest⟩
        rw [Option.some.inj hc, utf8Char_single hsingle] at hd
        exact ⟨rest, by rw [hsplit, ← hd, List.singleton_append], ofUtf8_eq_some.mpr hrest⟩
      · cases hstep.symm.trans h

theorem byte_of_decoded {bytes : Bytes} {c : Char} (hsingle : c.toNat < 0x80)
    (h : some c ∈ decodeFrom none bytes) : UInt8.ofNat c.toNat ∈ bytes := by
  -- What stands behind a sequence is shorter, but not the tail of the bytes.
  induction hn : bytes.length using Nat.strongRecOn generalizing bytes with
  | ind n ih =>
      cases bytes with
      | nil => cases h
      | cons b bytes =>
          rcases decode_cons b bytes with ⟨front, rest, hsplit, hfront, hstep⟩
          have hrest : some c ∈ decodeFrom none rest → UInt8.ofNat c.toNat ∈ b :: bytes := by
            intro hmem
            have hpositive := List.length_pos_iff.mpr hfront
            rw [hsplit, List.length_append] at hn
            rw [hsplit]
            exact List.mem_append_right _ (ih rest.length (by omega) hmem rfl)
          rcases hstep with ⟨d, hd, hstep⟩ | hstep
          · rw [hstep] at h
            rcases List.mem_cons.mp h with hc | hmem
            · rw [← Option.some.inj hc, utf8Char_single hsingle] at hd
              rw [hsplit, ← hd]
              exact List.mem_cons_self
            · exact hrest hmem
          · rw [hstep] at h
            exact hrest ((List.mem_cons.mp h).resolve_left nofun)

theorem byte_of_text {bytes : Bytes} {c : Char} (hsingle : c.toNat < 0x80)
    (h : c ∈ ofUtf8Lossy bytes) : UInt8.ofNat c.toNat ∈ bytes := by
  rcases List.mem_map.mp h with ⟨decoded, hmem, hc⟩
  cases decoded with
  | none =>
      have hlong : 0x80 ≤ replacement.toNat := by decide
      have hreplaced : replacement = c := hc
      rw [hreplaced] at hlong
      omega
  | some d =>
      cases hc
      exact byte_of_decoded hsingle hmem

/-- Whether two byte strings are read as one text, and at least one of them is not UTF-8. -/
def ReadAlike (a b : Bytes) : Prop :=
  ofUtf8Lossy a = ofUtf8Lossy b ∧ (ofUtf8? a = none ∨ ofUtf8? b = none)

theorem readAlike_of_ne {a b : Bytes} (hne : a ≠ b) (htext : ofUtf8Lossy a = ofUtf8Lossy b) :
    ReadAlike a b := by
  refine ⟨htext, ?_⟩
  by_contra hboth
  rw [not_or, ← ne_eq, ← ne_eq, Option.ne_none_iff_exists', Option.ne_none_iff_exists'] at hboth
  rcases hboth with ⟨⟨text, ha⟩, ⟨text', hb⟩⟩
  have hlossy : ∀ {bytes : Bytes} {text : List Char}, ofUtf8? bytes = some text →
      ofUtf8Lossy bytes = text := by
    intro bytes text h
    rw [ofUtf8Lossy, ofUtf8_eq_some.mp h, List.map_map]
    exact List.map_id text
  rw [hlossy ha, hlossy hb] at htext
  subst htext
  exact hne ((utf8_of_decoded _ (ofUtf8_eq_some.mp ha)).symm.trans
    (utf8_of_decoded _ (ofUtf8_eq_some.mp hb)))

end Text
end LuaBundle
