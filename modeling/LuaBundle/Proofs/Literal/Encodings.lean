import LuaBundle.Proofs.Literal.LongBrackets

/-!
# Literals in both encodings

A source read as bytes has one character for every byte of its text.  What starts an escape or
belongs to it is a single byte, and no byte of a longer character is taken for one.  So a
literal denotes the same bytes whichever way its source was read.
-/

namespace LuaBundle
namespace Lua

open Text

/-- A literal: some contents in quotes or in long brackets. -/
inductive IsLiteral : List Char → Prop where
  | quoted {quote : Char} {contents : List Char} :
      quote = '"' ∨ quote = '\'' → IsLiteral (quote :: (contents ++ [quote]))
  | long {level : Nat} {contents : List Char} : IsLiteral (inBrackets level contents)

/-- A text as it is read from its bytes, with one character for each of them. -/
def byteText (text : List Char) : List Char :=
  ofBytes (utf8 text)

/-!
## Characters of one byte
-/

section Characters

variable {c : Char} {text rest front back : List Char} {kind : Char → Prop}

theorem byteText_append (front back : List Char) :
    byteText (front ++ back) = byteText front ++ byteText back := by
  rw [byteText, utf8, List.flatMap_append, ofBytes_append]
  rfl

theorem byteText_cons_ascii (hc : c.toNat < 0x80) (rest : List Char) :
    byteText (c :: rest) = c :: byteText rest := by
  rw [byteText, utf8, List.flatMap_cons, utf8Char_single hc, ofBytes_append]
  change Char.ofNat (UInt8.ofNat c.toNat).toNat :: byteText rest = _
  rw [ofNat_byte hc]

theorem byteText_ascii (htext : ∀ c ∈ text, c.toNat < 0x80) : byteText text = text := by
  induction text with
  | nil => rfl
  | cons c text ih =>
      rw [byteText_cons_ascii (htext c List.mem_cons_self),
        ih fun d hd => htext d (List.mem_cons_of_mem _ hd)]

theorem byteText_cons_large (hc : ¬c.toNat < 0x80) (rest : List Char) :
    ∃ d more, byteText (c :: rest) = d :: more ∧ ¬d.toNat < 0x80 := by
  obtain ⟨b, others, hbytes⟩ := List.exists_cons_of_ne_nil (charBytes_ne_nil .utf8 c)
  have hbytes : utf8Char c = b :: others := hbytes
  refine ⟨Char.ofNat b.toNat, ofBytes others ++ byteText rest, ?_, ?_⟩
  · rw [byteText, utf8, List.flatMap_cons, hbytes, ofBytes_append]
    rfl
  · intro hsmall
    rw [toNat_ofByte] at hsmall
    have hmem : b ∈ utf8Char c := by rw [hbytes]; exact List.mem_cons_self
    exact hc (by rw [toNat_of_mem_utf8Char hsmall hmem]; exact hsmall)

theorem cons_of_byteText {after : List Char} (h : byteText text = c :: after)
    (hc : c.toNat < 0x80) : ∃ rest, text = c :: rest ∧ byteText rest = after := by
  cases text with
  | nil => cases h
  | cons d rest =>
      by_cases hd : d.toNat < 0x80
      · rw [byteText_cons_ascii hd] at h
        obtain ⟨rfl, hrest⟩ := List.cons.inj h
        exact ⟨rest, rfl, hrest⟩
      · obtain ⟨e, more, hstart, he⟩ := byteText_cons_large hd rest
        rw [hstart] at h
        rw [(List.cons.inj h).1] at he
        exact absurd hc he

theorem startsIn_byteText (hkind : ∀ c, kind c → c.toNat < 0x80) :
    StartsIn kind (byteText rest) ↔ StartsIn kind rest := by
  constructor
  · intro h
    match hstart : byteText rest, h with
    | c :: after, hc =>
        obtain ⟨more, rfl, _⟩ := cons_of_byteText hstart (hkind c hc)
        exact hc
  · intro h
    match rest, h with
    | c :: more, hc =>
        rw [byteText_cons_ascii (hkind c hc)]
        exact hc

end Characters

/-!
## Escapes
-/

theorem IsDigit.ascii {base : Nat} (hbase : base ≤ 16) {c : Char} (h : IsDigit base c) :
    c.toNat < 0x80 := by
  obtain ⟨d, hd, hc⟩ := h
  exact toNat_lt_of_hexDigit (hexDigit_iff.mpr ⟨Nat.lt_of_lt_of_le hd hbase, hc⟩)

theorem Positional.ascii {base value : Nat} {text : List Char} (hbase : base ≤ 16)
    (h : Positional base text value) : ∀ c ∈ text, c.toNat < 0x80 := by
  induction h with
  | none => exact List.forall_mem_nil _
  | @more text value d c _ hd ih =>
      intro e he
      rcases List.mem_append.mp he with he | he
      · exact ih e he
      · rw [List.mem_singleton.mp he]
        exact IsDigit.ascii hbase ⟨d, hd⟩

theorem ascii_of_all {text : List Char} (h : text.all (·.toNat < 0x80) = true) :
    ∀ c ∈ text, c.toNat < 0x80 := by
  intro c hc
  exact of_decide_eq_true (List.all_eq_true.mp h c hc)

theorem escapeBlanks_ascii : ∀ c ∈ escapeBlanks, c.toNat < 0x80 :=
  ascii_of_all (by decide)

theorem lineBreakPair_ascii {first second : Char} (h : (first, second) ∈ lineBreakPairs) :
    ∀ c ∈ [first, second], c.toNat < 0x80 := by
  have hall : ∀ c ∈ lineBreakPairs.flatMap fun pair => [pair.1, pair.2], c.toNat < 0x80 :=
    ascii_of_all (by decide)
  intro c hc
  exact hall c (List.mem_flatMap.mpr ⟨_, h, hc⟩)

theorem secondBreak_ascii (c : Char) :
    ∀ next, (c, next) ∈ lineBreakPairs → next.toNat < 0x80 := by
  intro next hpair
  exact lineBreakPair_ascii hpair next (List.mem_cons_of_mem _ List.mem_cons_self)

theorem IsBreak.ascii {c : Char} (h : IsBreak c) : c.toNat < 0x80 := by
  rcases h with rfl | rfl <;> decide

theorem LineBreak.ascii {text rest : List Char} (h : LineBreak text rest) :
    ∀ c ∈ text, c.toNat < 0x80 := by
  cases h with
  | pair hpair => exact lineBreakPair_ascii hpair
  | single hc _ => exact List.forall_mem_singleton.mpr (IsBreak.ascii hc)

theorem letterEscape_ascii {c : Char} {byte : UInt8} (h : (c, byte) ∈ letterEscapes) :
    c.toNat < 0x80 := by
  have hall : ∀ c ∈ letterEscapes.map Prod.fst, c.toNat < 0x80 := ascii_of_all (by decide)
  exact hall c (List.mem_map_of_mem h)

theorem Escape.ascii {text rest : List Char} {bytes : Bytes} (h : Escape text rest bytes) :
    ∀ c ∈ text, c.toNat < 0x80 := by
  cases h with
  | letter hletter => exact List.forall_mem_singleton.mpr (letterEscape_ascii hletter)
  | breakPair hpair => exact lineBreakPair_ascii hpair
  | lineBreak hc _ => exact List.forall_mem_singleton.mpr (IsBreak.ascii hc)
  | skip hblanks _ =>
      rw [List.forall_mem_cons]
      exact ⟨by decide, fun c hc => escapeBlanks_ascii c (hblanks c hc)⟩
  | hexadecimal hvalue =>
      rw [List.forall_mem_cons]
      exact ⟨by decide, hvalue.ascii (by decide)⟩
  | decimal hrun _ => exact hrun.positional.ascii (by decide)
  | codePoint hvalue _ _ =>
      rw [List.forall_mem_cons, List.forall_mem_cons, List.forall_mem_append]
      exact ⟨by decide, by decide, hvalue.ascii (by decide),
        List.forall_mem_singleton.mpr (by decide)⟩

theorem DecimalRun.byteText {digits rest : List Char} {value : Nat}
    (h : DecimalRun digits rest value) : DecimalRun digits (Lua.byteText rest) value where
  positional := h.positional
  nonempty := h.nonempty
  short := h.short
  greedy hrest := h.greedy ((startsIn_byteText fun _ => IsDigit.ascii (by decide)).mp hrest)

/-- An escape reaches equally far in front of the bytes of what follows it. -/
theorem Escape.byteText {text rest : List Char} {bytes : Bytes} (h : Escape text rest bytes) :
    Escape text (Lua.byteText rest) bytes := by
  cases h with
  | letter hletter => exact .letter hletter
  | breakPair hpair => exact .breakPair hpair
  | lineBreak hc hrest =>
      exact .lineBreak hc (mt (startsIn_byteText (secondBreak_ascii _)).mp hrest)
  | skip hblanks hrest =>
      exact .skip hblanks (mt (startsIn_byteText escapeBlanks_ascii).mp hrest)
  | hexadecimal hvalue => exact .hexadecimal hvalue
  | decimal hrun hbyte => exact .decimal hrun.byteText hbyte
  | codePoint hvalue hdigits hsmall => exact .codePoint hvalue hdigits hsmall

theorem rejected_byteText {text : List Char} {e : BadEscape} (h : Rejected text e) :
    ∃ e', Rejected (byteText text) e' := by
  have hbrace : ∀ c, c = '\x7b' → c.toNat < 0x80 := by
    rintro c rfl
    decide
  have hclosing : ∀ c, c = '\x7d' → c.toNat < 0x80 := by
    rintro c rfl
    decide
  have hhex : ∀ c, IsDigit 16 c → c.toNat < 0x80 := fun _ => IsDigit.ascii (by decide)
  cases h with
  | unfinished => exact ⟨_, .unfinished⟩
  | @unknown c rest hc =>
      by_cases hsmall : c.toNat < 0x80
      · rw [byteText_cons_ascii hsmall]
        exact ⟨_, .unknown hc⟩
      · -- The first byte of the letter is the unknown letter then.
        obtain ⟨d, more, hstart, hd⟩ := byteText_cons_large hsmall rest
        have hascii : ∀ c ∈ escapeStarts, c.toNat < 0x80 := ascii_of_all (by decide +kernel)
        rw [hstart]
        exact ⟨_, .unknown fun hmem => hd (hascii d hmem)⟩
  | hexDigits hdigits =>
      rw [byteText_cons_ascii (by decide)]
      refine ⟨_, .hexDigits ?_⟩
      rintro high low after hrest ⟨hhigh, hlow⟩
      obtain ⟨more, rfl, hmore⟩ := cons_of_byteText hrest (hhex high hhigh)
      obtain ⟨after, rfl, _⟩ := cons_of_byteText hmore (hhex low hlow)
      exact hdigits high low after rfl ⟨hhigh, hlow⟩
  | decimal hrun hlarge =>
      rw [byteText_append, byteText_ascii (hrun.positional.ascii (by decide))]
      exact ⟨_, .decimal hrun.byteText hlarge⟩
  | noBrace hrest =>
      rw [byteText_cons_ascii (by decide)]
      exact ⟨_, .noBrace (mt (startsIn_byteText hbrace).mp hrest)⟩
  | codePoint hvalue hsmall hstop hclose =>
      rw [byteText_cons_ascii (by decide), byteText_cons_ascii (by decide), byteText_append,
        byteText_ascii (hvalue.ascii (by decide))]
      exact ⟨_, .codePoint hvalue hsmall (mt (startsIn_byteText hhex).mp hstop)
        fun h => hclose ((startsIn_byteText hclosing).mp h)⟩
  | tooLarge hvalue hsmall hc hlarge =>
      rw [byteText_cons_ascii (by decide), byteText_cons_ascii (by decide), byteText_append,
        byteText_ascii (hvalue.ascii (by decide)), byteText_cons_ascii (hhex _ ⟨_, hc⟩)]
      exact ⟨_, .tooLarge hvalue hsmall hc hlarge⟩

/-!
## Contents
-/

section Contents

variable {front bytes : Bytes} {text rest : List Char}

theorem ofByte_ne_backslash {b : UInt8} (hb : b ≠ 0x5C) : Char.ofNat b.toNat ≠ '\\' := by
  intro heq
  have hnat := toNat_ofByte b
  rw [heq] at hnat
  exact hb (UInt8.toNat_inj.mp hnat.symm)

theorem denotes_bytes (hfront : (0x5C : UInt8) ∉ front) (h : Denotes .bytes rest bytes) :
    Denotes .bytes (ofBytes front ++ rest) (front ++ bytes) := by
  induction front with
  | nil => exact h
  | cons b front ih =>
      obtain ⟨hb, hmore⟩ := List.ne_and_not_mem_of_not_mem_cons hfront
      have hstep := Denotes.plain (ofByte_ne_backslash hb.symm) (ih hmore)
      rw [charBytes_ofByte] at hstep
      exact hstep

theorem refused_bytes {e : BadEscape} (hfront : (0x5C : UInt8) ∉ front) (h : Refused rest e) :
    Refused (ofBytes front ++ rest) e := by
  induction front with
  | nil => exact h
  | cons b front ih =>
      obtain ⟨hb, hmore⟩ := List.ne_and_not_mem_of_not_mem_cons hfront
      exact .plain (ofByte_ne_backslash hb.symm) (ih hmore)

theorem backslash_not_mem {c : Char} (hc : c ≠ '\\') : (0x5C : UInt8) ∉ utf8Char c := by
  intro hmem
  exact hc (Char.toNat_inj.mp (toNat_of_mem_utf8Char (by decide) hmem))

theorem denotes_byteText (h : Denotes .utf8 text bytes) :
    Denotes .bytes (byteText text) bytes := by
  induction h with
  | empty => exact .empty
  | @plain c rest bytes hc _ ih =>
      rw [← List.singleton_append, byteText_append, byteText, utf8, List.flatMap_singleton]
      exact denotes_bytes (backslash_not_mem hc) ih
  | escape hpiece _ ih =>
      rw [byteText_cons_ascii (by decide), byteText_append, byteText_ascii hpiece.ascii]
      exact .escape hpiece.byteText ih

theorem refused_byteText {e : BadEscape} (h : Refused text e) :
    ∃ e', Refused (byteText text) e' := by
  induction h with
  | here hrejected =>
      obtain ⟨e', he'⟩ := rejected_byteText hrejected
      rw [byteText_cons_ascii (by decide)]
      exact ⟨e', .here he'⟩
  | @plain c rest e hc _ ih =>
      obtain ⟨e', he'⟩ := ih
      rw [← List.singleton_append, byteText_append, byteText, utf8, List.flatMap_singleton]
      exact ⟨e', refused_bytes (backslash_not_mem hc) he'⟩
  | escape hpiece _ ih =>
      obtain ⟨e', he'⟩ := ih
      rw [byteText_cons_ascii (by decide), byteText_append, byteText_ascii hpiece.ascii]
      exact ⟨e', .escape hpiece.byteText he'⟩

theorem quotedBytes_byteText :
    quotedBytes .bytes (byteText text) = .ok bytes ↔ quotedBytes .utf8 text = .ok bytes := by
  constructor
  · intro h
    rcases denotes_or_refused .utf8 text with ⟨other, hother⟩ | ⟨e, he⟩
    · have hsame := quotedBytes_eq_ok.mpr (denotes_byteText hother)
      rw [h] at hsame
      rw [Except.ok.inj hsame]
      exact quotedBytes_eq_ok.mpr hother
    · obtain ⟨e', he'⟩ := refused_byteText he
      rw [quotedBytes_eq_error.mpr he'] at h
      cases h
  · intro h
    exact quotedBytes_eq_ok.mpr (denotes_byteText (quotedBytes_eq_ok.mp h))

end Contents

/-!
## Literals
-/

theorem byteText_signs {c : Char} (hc : c.toNat < 0x80) (level : Nat) :
    byteText (c :: (List.replicate level '=' ++ [c])) = c :: (List.replicate level '=' ++ [c]) := by
  apply byteText_ascii
  rw [List.forall_mem_cons, List.forall_mem_append, List.forall_mem_singleton]
  constructor
  · exact hc
  constructor
  · intro d hd
    rw [List.eq_of_mem_replicate hd]
    decide
  · exact hc

theorem byteText_inBrackets (level : Nat) (contents : List Char) :
    byteText (inBrackets level contents) = inBrackets level (byteText contents) := by
  have hopening : byteText (openingBracket level) = openingBracket level :=
    byteText_signs (by decide) level
  have hclosing : byteText (closingBracket level) = closingBracket level :=
    byteText_signs (by decide) level
  rw [inBrackets, inBrackets, byteText_append, byteText_append, hopening, hclosing]

theorem opened_byteText {contents body : List Char} (h : Opened contents body) :
    Opened (byteText contents) (byteText body) := by
  cases h with
  | lineBreak hbreak =>
      rw [byteText_append, byteText_ascii hbreak.ascii]
      apply Opened.lineBreak
      cases hbreak with
      | pair hpair => exact .pair hpair
      | single hc hrest =>
          exact .single hc (mt (startsIn_byteText (secondBreak_ascii _)).mp hrest)
  | none hplain => exact .none (mt (startsIn_byteText fun _ => IsBreak.ascii).mp hplain)

theorem toBytes_dropLineBreak (contents : List Char) :
    Encoding.bytes.toBytes (dropLineBreak (byteText contents)) =
      Encoding.utf8.toBytes (dropLineBreak contents) := by
  obtain ⟨body, hopened⟩ := exists_opened contents
  rw [dropLineBreak_of_opened hopened, dropLineBreak_of_opened (opened_byteText hopened)]
  exact toBytes_ofBytes (utf8 body)

/-- A literal denotes the same bytes in a source that is read as text and in one that is read
as bytes, or nothing in both.  Reading bytes as characters loses nothing, and writing characters
as bytes loses nothing just when each of them is a byte. -/
theorem encodings_agree :
    (∀ raw, IsLiteral raw → ∀ bytes,
      literalBytes .bytes (ofBytes (utf8 raw)) = .ok bytes ↔ literalBytes .utf8 raw = .ok bytes) ∧
      (∀ bytes, toBytes (ofBytes bytes) = bytes) ∧
      ∀ text, ofBytes (toBytes text) = text ↔ ∀ c ∈ text, c.toNat < 0x100 := by
  constructor
  · intro raw hraw bytes
    change literalBytes .bytes (byteText raw) = .ok bytes ↔ _
    cases hraw with
    | @quoted quote contents hquote =>
        have hascii : quote.toNat < 0x80 := by
          rcases hquote with rfl | rfl <;> decide
        have hone : byteText [quote] = [quote] := byteText_cons_ascii hascii []
        rw [byteText_cons_ascii hascii, byteText_append, hone, literalBytes_quoted _ _ hquote,
          literalBytes_quoted _ _ hquote]
        exact quotedBytes_byteText
    | @long level contents =>
        rw [byteText_inBrackets, literalBytes_inBrackets, literalBytes_inBrackets,
          toBytes_dropLineBreak]
  · exact ⟨toBytes_ofBytes, fun text => ofBytes_toBytes_iff⟩

/-- A literal with longer characters, one of them a blank, next to escapes. -/
def foreignLiteral : List Char :=
  '"' :: ("é\\z \u3000\\u\x7bE9\x7d\\0659".toList ++ ['"'])

/-- A literal whose escape is a longer character. -/
def strayLiteral : List Char :=
  '"' :: (['\\', 'é'] ++ ['"'])

theorem encodings_agree_foreign :
    (IsLiteral foreignLiteral ∧
      literalBytes .utf8 foreignLiteral =
        .ok [0xC3, 0xA9, 0xE3, 0x80, 0x80, 0xC3, 0xA9, 0x41, 0x39] ∧
      literalBytes .bytes (ofBytes (utf8 foreignLiteral)) =
        .ok [0xC3, 0xA9, 0xE3, 0x80, 0x80, 0xC3, 0xA9, 0x41, 0x39]) ∧
      IsLiteral strayLiteral ∧ literalBytes .utf8 strayLiteral = .error (.unknown 'é') ∧
      ∀ bytes, literalBytes .bytes (ofBytes (utf8 strayLiteral)) ≠ .ok bytes := by
  have hforeign : IsLiteral foreignLiteral := .quoted (Or.inl rfl)
  have hstray : IsLiteral strayLiteral := .quoted (Or.inl rfl)
  have hok : literalBytes .utf8 foreignLiteral =
      .ok [0xC3, 0xA9, 0xE3, 0x80, 0x80, 0xC3, 0xA9, 0x41, 0x39] := by
    decide +kernel
  have herror : literalBytes .utf8 strayLiteral = .error (.unknown 'é') := by
    decide +kernel
  refine ⟨⟨hforeign, hok, ?_⟩, hstray, herror, ?_⟩
  · exact (encodings_agree.1 foreignLiteral hforeign _).mpr hok
  · intro bytes hbytes
    cases herror.symm.trans ((encodings_agree.1 strayLiteral hstray bytes).mp hbytes)

end Lua
end LuaBundle
