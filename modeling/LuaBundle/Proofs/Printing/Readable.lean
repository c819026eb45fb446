import LuaBundle.Proofs.Grammar.Plain
import LuaBundle.Proofs.Printing.Pages
import LuaBundle.Proofs.Text.Bytes

/-!
# Readable bodies

The body of a script is well-formed, has no faults and has the marks that its names get.
Whatever has these three properties is read again when it is printed: as characters or, with
one byte for every character, as bytes.
-/

namespace LuaBundle
namespace Lua

open Text

/-- A body that could be that of a script, in a scope around it. -/
structure Readable (encoding : Encoding) (scope : List String) (body : List Stat) : Prop where
  wellFormed : blockWellFormed encoding body
  faultless : blockFaults encoding true body = []
  settled : Settled scope body

/-- The chunk that a text holds: of characters, or of one byte for every character. -/
def reread (encoding : Encoding) (text : List Char) : Except ParseError Chunk :=
  match encoding with
  | .utf8 => parse .utf8 text
  | .bytes => parseBytes (toBytes text)

/-!
## Characters of a source
-/

theorem admits_bytes {text : List Char} :
    text.all (admits .bytes) = true ↔ ∀ c ∈ text, c.toNat < 0x100 := by
  simp only [List.all_eq_true, admits, decide_eq_true_eq]

theorem ofBytes_admitted (bytes : Bytes) : (ofBytes bytes).all (admits .bytes) = true :=
  admits_bytes.mpr fun _ => toNat_lt_of_mem_ofBytes

theorem reread_eq {encoding : Encoding} {text : List Char}
    (h : text.all (admits encoding) = true) : reread encoding text = parse encoding text := by
  cases encoding with
  | utf8 => rfl
  | bytes => rw [reread, parseBytes, ofBytes_toBytes (admits_bytes.mp h)]

theorem mem_of_dropByteOrderMark {source : List Char} {c : Char}
    (h : c ∈ dropByteOrderMark source) : c ∈ source := by
  unfold dropByteOrderMark at h
  split at h
  · exact List.mem_cons_of_mem _ h
  · exact h

theorem mem_of_dropInterpreterLine {text : List Char} {c : Char}
    (h : c ∈ (dropInterpreterLine text).2) : c ∈ text := by
  unfold dropInterpreterLine at h
  split at h
  · split at h
    · rename_i rest heq
      have hmem : c ∈ List.dropWhile (· != '\n') _ := heq ▸ List.mem_cons_of_mem _ h
      exact (List.dropWhile_sublist _).subset hmem
    · exact h
  · exact h

theorem genuine_of_lex {encoding : Encoding} {source : List Char} {lexemes : List Lexeme}
    (hsource : source.all (admits encoding) = true) (h : lex source = .ok lexemes) :
    Genuine encoding (tokens lexemes) := by
  refine genuine_of_lexFrom ?_ h false
  rw [List.all_eq_true] at hsource ⊢
  exact fun c hc => hsource c (mem_of_dropByteOrderMark (mem_of_dropInterpreterLine hc))

/-!
## Scripts
-/

theorem exists_ok_of_any {ε α : Type} {result : Except ε α} {check : α → Bool}
    (h : result.toOption.any check = true) : ∃ a, result = .ok a ∧ check a = true := by
  cases result with
  | error e => cases h
  | ok a => exact ⟨a, rfl, h⟩

theorem parse_ok {encoding : Encoding} {source : List Char} {c : Chunk}
    (h : parse encoding source = .ok c) :
    ∃ lexemes body, lex source = .ok lexemes ∧ program (tokens lexemes) = .ok body ∧
      blockFaults encoding true body = [] ∧ c.body = (resolveBlock [] body).1 ∧
      c.globals = freeNames c.body := by
  unfold parse at h
  split at h
  · cases h
  · rename_i lexemes hlex
    unfold bodyOf at h
    split at h
    · cases h
    · rename_i body hbody
      split at hbody
      · cases hbody
      · rename_i found hprogram
        split at hbody
        · cases hbody
        · rename_i hfaults
          cases hbody
          cases h
          exact ⟨lexemes, found, hlex, hprogram, hfaults, rfl, rfl⟩

theorem parse_of_program {encoding : Encoding} {source : List Char} {lexemes : List Lexeme}
    {body : List Stat} (hlex : lex source = .ok lexemes)
    (hprogram : program (tokens lexemes) = .ok body)
    (hfaults : blockFaults encoding true body = []) :
    ∃ c, parse encoding source = .ok c ∧ c.body = (resolveBlock [] body).1 := by
  refine ⟨⟨(resolveBlock [] body).1, comments lexemes, freeNames (resolveBlock [] body).1⟩, ?_, rfl⟩
  simp only [parse, hlex, bodyOf, hprogram, hfaults]

theorem faults_eq_nil_congr {encoding : Encoding} {first second : List Stat}
    {join join' : BinaryOp → Expr → Expr → Expr} (keeps : KeepsLayout join)
    (keeps' : KeepsLayout join') (h : strippedBlock join first = strippedBlock join' second)
    (hfaults : blockFaults encoding true second = []) : blockFaults encoding true first = [] := by
  rw [← blockFaults_stripped keeps, h, blockFaults_stripped keeps']
  exact hfaults

theorem readable_of_parse {encoding : Encoding} {source : List Char} {c : Chunk}
    (hsource : source.all (admits encoding) = true) (h : parse encoding source = .ok c) :
    Readable encoding [] c.body := by
  rcases parse_ok h with ⟨lexemes, body, hlex, hprogram, hfaults, hbody, _⟩
  have hplain := plain_of_program (genuine_of_lex hsource hlex) hprogram
  have hstripped := block_stripped_resolve [] body
  rw [hbody]
  constructor
  case wellFormed =>
    rw [← block_wellFormed_stripped, hstripped, block_wellFormed_stripped]
    exact hplain.1
  case faultless =>
    exact faults_eq_nil_congr keepsLayout_binary keepsLayout_binary hstripped hfaults
  case settled => exact settled_resolve hplain.2

/-!
## Printed bodies
-/

section Printed

variable {style : Style} {encoding : Encoding} {body : List Stat}

theorem mem_of_token {page : Page} {word : String} {c : Char}
    (h : c ∈ page.added (.token word)) : c = ' ' ∨ c ∈ word.toList := by
  unfold Page.added at h
  cases hlist : word.toList with
  | nil => simp [hlist] at h
  | cons d rest =>
      simp only [hlist, List.mem_append] at h
      rcases h with h | h
      · split at h
        · exact Or.inl (List.mem_singleton.mp h)
        · cases h
      · exact Or.inr h

theorem mem_of_added {page : Page} {piece : Piece} {c : Char} (h : c ∈ page.added piece) :
    c = ' ' ∨ c = '\n' ∨ ∃ word, (piece = .token word ∨ piece = .numeral word) ∧
      c ∈ word.toList := by
  cases piece with
  | token word =>
      exact (mem_of_token h).imp_right fun hc => Or.inr ⟨word, Or.inl rfl, hc⟩
  | numeral word =>
      have h : c ∈ page.added (.token word) := h
      exact (mem_of_token h).imp_right fun hc => Or.inr ⟨word, Or.inr rfl, hc⟩
  | gap =>
      simp only [Page.added] at h
      split at h
      · exact Or.inl (List.mem_singleton.mp h)
      · cases h
  | newline depth =>
      simp only [Page.added] at h
      split at h
      · rcases List.mem_cons.mp h with rfl | h
        · exact Or.inr (Or.inl rfl)
        · exact Or.inl (List.eq_of_mem_replicate h)
      · cases h

theorem step_admitted {trail mid : Trail} {piece : Piece}
    (h : trail.Step style encoding piece mid) {word : String}
    (hpiece : piece = .token word ∨ piece = .numeral word) :
    word.toList.all (admits encoding) = true := by
  have hascii : ∀ word ∈ keywords ++ ">>" :: signs,
      (word.toList.all fun c => c.toNat < 0x100) = true := by decide
  have hreserved : ∀ word ∈ keywords ++ ">>" :: signs,
      word.toList.all (admits encoding) = true := by
    intro word hword
    cases encoding with
    | utf8 => exact List.all_eq_true.mpr fun _ _ => rfl
    | bytes => exact hascii word hword
  rcases hpiece with rfl | rfl
  · cases h with
    | name h | letters h => exact h.admitted
    | keyword h => exact hreserved _ (List.mem_append_left _ h)
    | string h => exact h.admitted
    | sign h => exact hreserved _ (List.mem_append_right _ (List.mem_cons_of_mem _ h))
    | shift => exact hreserved _ (List.mem_append_right _ List.mem_cons_self)
  · cases h with
    | numeral h => exact h.admitted

theorem admits_blank (encoding : Encoding) :
    admits encoding ' ' = true ∧ admits encoding '\n' = true := by
  cases encoding <;> decide

theorem following_admitted {trail last : Trail} {ps : List Piece}
    (h : trail.Flow style encoding ps last) (page : Page) :
    (page.following ps).all (admits encoding) = true := by
  induction h generalizing page with
  | nil => rfl
  | cons hstep _ ih =>
      rw [Page.following, List.all_append, ih, Bool.and_true, List.all_eq_true]
      intro c hc
      rcases mem_of_added hc with rfl | rfl | ⟨word, hpiece, hc⟩
      · exact (admits_blank encoding).1
      · exact (admits_blank encoding).2
      · exact List.all_eq_true.mp (step_admitted hstep hpiece) c hc

theorem print_admitted (hbody : blockWellFormed encoding body)
    (hnames : Prints style (blockNames body)) :
    (print style body).all (admits encoding) = true := by
  rcases print_text style body with ⟨ending, htext, hending⟩
  rcases block_flows style 0 false body hbody hnames .clear Trail.closed_clear with ⟨_, _, hflow⟩
  rw [htext, List.all_append, following_admitted hflow, Bool.true_and]
  rcases hending with rfl | rfl
  · rfl
  · rw [List.all_cons, (admits_blank encoding).2]
    rfl

/-- A printed readable body is read again, up to lines and groups that its layout does not
show. -/
theorem reread_print (hbody : Readable encoding [] body) (hnames : Prints style (blockNames body)) :
    ∃ c, reread encoding (print style body) = .ok c ∧ Settled [] c.body ∧
      strippedBlock .binary c.body = strippedBlock regrouped body := by
  rcases program_print hbody.wellFormed hnames with ⟨lexemes, found, hlex, hprogram, hstripped⟩
  have hadmitted := print_admitted hbody.wellFormed hnames
  have hfaults := faults_eq_nil_congr keepsLayout_binary keepsLayout_regrouped hstripped
    hbody.faultless
  rcases parse_of_program hlex hprogram hfaults with ⟨c, hparse, hc⟩
  rw [reread_eq hadmitted]
  refine ⟨c, hparse, ?_, ?_⟩
  · rw [hc]
    exact settled_resolve (plain_of_program (genuine_of_lex hadmitted hlex) hprogram).2
  · rw [hc, block_stripped_resolve, hstripped]

theorem print_congr {other : List Stat}
    (h : strippedBlock .binary other = strippedBlock regrouped body) (style : Style) :
    print style other = print style body := by
  have hpieces : blockPieces style 0 false other = blockPieces style 0 false body := by
    rw [← blockPieces_stripped keepsLayout_binary, h, blockPieces_stripped keepsLayout_regrouped]
  simp only [print, Page.chunk, hpieces]

end Printed

end Lua
end LuaBundle
