import LuaBundle.Proofs.Text.Decoding
import LuaBundle.Text.Utf8

/-!
# Bytes and characters

A byte below 128 stands for one character only, whatever the encoding.  One character for every
byte gives the bytes back, and a text is given back just when all of its characters are bytes.
-/

namespace LuaBundle
namespace Text

/-!
## Bytes of a character
-/

theorem toNat_of_mem_utf8Char {c : Char} {b : UInt8} (hb : b.toNat < 0x80)
    (h : b ∈ utf8Char c) : c.toNat = b.toNat := by
  have hsmall : ∀ n : Nat, n < 0x100 → (UInt8.ofNat n).toNat = n := by
    intro n hn
    rw [UInt8.toNat_ofNat']
    omega
  change c.val.toNat = b.toNat
  simp only [utf8Char, String.utf8EncodeChar] at h
  generalize c.val.toNat = n at h ⊢
  split at h
  · simp only [List.mem_singleton] at h
    rw [h, hsmall n (by omega)]
  · exfalso
    have hlarge : ∀ n : Nat, 0x80 ≤ n → n < 0x100 → b ≠ UInt8.ofNat n := by
      rintro n hn hn' rfl
      rw [hsmall n hn'] at hb
      omega
    split at h
    · simp only [List.mem_cons, List.not_mem_nil, or_false] at h
      rcases h with h | h <;> exact hlarge _ (by omega) (by omega) h
    · split at h <;> simp only [List.mem_cons, List.not_mem_nil, or_false] at h
      · rcases h with h | h | h <;> exact hlarge _ (by omega) (by omega) h
      · rcases h with h | h | h | h <;> exact hlarge _ (by omega) (by omega) h

theorem toNat_of_mem_charBytes {encoding : Encoding} {c : Char} {b : UInt8} (hb : b.toNat < 0x80)
    (h : b ∈ encoding.charBytes c) : c.toNat = b.toNat := by
  cases encoding with
  | utf8 => exact toNat_of_mem_utf8Char hb h
  | bytes =>
      by_cases hc : c.toNat < 0x100
      · rw [Encoding.charBytes, if_pos hc, List.mem_singleton] at h
        rw [h, UInt8.toNat_ofNat']
        omega
      · rw [Encoding.charBytes, if_neg hc] at h
        exact toNat_of_mem_utf8Char hb h

theorem charBytes_ne_nil (encoding : Encoding) (c : Char) : encoding.charBytes c ≠ [] := by
  have hutf8 : utf8Char c ≠ [] := by
    apply List.ne_nil_of_length_pos
    rw [utf8Char, String.length_utf8EncodeChar]
    exact c.utf8Size_pos
  cases encoding with
  | utf8 => exact hutf8
  | bytes =>
      by_cases hc : c.toNat < 0x100
      · rw [Encoding.charBytes, if_pos hc]
        exact List.cons_ne_nil _ _
      · rw [Encoding.charBytes, if_neg hc]
        exact hutf8

theorem charBytes_ascii (encoding : Encoding) {c : Char} (h : c.toNat < 0x80) :
    encoding.charBytes c = [c.toNat.toUInt8] := by
  cases encoding with
  | utf8 => exact utf8Char_single h
  | bytes => rw [Encoding.charBytes, if_pos (Nat.lt_trans h (by decide))]

/-- A character below 128 is in a text just when its byte is in the bytes of the text. -/
theorem mem_toBytes_ascii {encoding : Encoding} {text : List Char} {c : Char} (h : c.toNat < 0x80) :
    c.toNat.toUInt8 ∈ encoding.toBytes text ↔ c ∈ text := by
  have hbyte : c.toNat.toUInt8.toNat = c.toNat := by
    rw [Nat.toUInt8, UInt8.toNat_ofNat']
    omega
  rw [Encoding.toBytes, List.mem_flatMap]
  constructor
  · rintro ⟨d, hd, hmem⟩
    have hnat := toNat_of_mem_charBytes (by omega) hmem
    rw [hbyte] at hnat
    rw [← Char.toNat_inj.mp hnat]
    exact hd
  · intro hc
    refine ⟨c, hc, ?_⟩
    rw [charBytes_ascii encoding h]
    exact List.mem_singleton_self _

/-!
## One character for every byte
-/

theorem toNat_ofByte (b : UInt8) : (Char.ofNat b.toNat).toNat = b.toNat := by
  have hb := b.toNat_lt
  have hvalid : b.toNat.isValidChar := Or.inl (by omega)
  rw [Char.ofNat, dif_pos hvalid]
  rfl

theorem ofBytes_append (front back : Bytes) :
    ofBytes (front ++ back) = ofBytes front ++ ofBytes back :=
  List.map_append

theorem toNat_lt_of_mem_ofBytes {bytes : Bytes} {c : Char} (h : c ∈ ofBytes bytes) :
    c.toNat < 0x100 := by
  obtain ⟨b, _, rfl⟩ := List.mem_map.mp h
  rw [toNat_ofByte]
  exact b.toNat_lt

theorem charBytes_ofByte (b : UInt8) : Encoding.bytes.charBytes (Char.ofNat b.toNat) = [b] := by
  rw [Encoding.charBytes, toNat_ofByte, if_pos b.toNat_lt]
  exact congrArg (fun byte => [byte]) UInt8.ofNat_toNat

theorem toBytes_ofBytes (bytes : Bytes) : toBytes (ofBytes bytes) = bytes := by
  induction bytes with
  | nil => rfl
  | cons b rest ih =>
      change Encoding.bytes.charBytes (Char.ofNat b.toNat) ++ toBytes (ofBytes rest) = _
      rw [charBytes_ofByte, ih, List.singleton_append]

theorem ofBytes_toBytes {text : List Char} (h : ∀ c ∈ text, c.toNat < 0x100) :
    ofBytes (toBytes text) = text := by
  induction text with
  | nil => rfl
  | cons c rest ih =>
      have hc := h c List.mem_cons_self
      have hbyte : c.toNat.toUInt8.toNat = c.toNat := by
        rw [Nat.toUInt8, UInt8.toNat_ofNat']
        omega
      change ofBytes (Encoding.bytes.charBytes c ++ toBytes rest) = _
      rw [Encoding.charBytes, if_pos hc, ofBytes_append,
        ih fun d hd => h d (List.mem_cons_of_mem _ hd)]
      change Char.ofNat c.toNat.toUInt8.toNat :: rest = _
      rw [hbyte, Char.ofNat_toNat]

/-- A text comes back from its bytes just when each of its characters is a byte. -/
theorem ofBytes_toBytes_iff {text : List Char} :
    ofBytes (toBytes text) = text ↔ ∀ c ∈ text, c.toNat < 0x100 := by
  constructor
  · intro h c hc
    rw [← h] at hc
    exact toNat_lt_of_mem_ofBytes hc
  · exact ofBytes_toBytes

end Text
end LuaBundle
