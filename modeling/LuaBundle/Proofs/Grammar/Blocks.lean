import LuaBundle.Proofs.Grammar.Statements

/-!
# Reading printed blocks

The tokens of a printed block are read as its statements again, and so are those of a whole
source.  A semicolon in front of a statement that starts with a parenthesis belongs to the
statement before.
-/

namespace LuaBundle
namespace Lua

open Text
open LuaBundle.Lua.Parser

section Blocks

variable {style : Style} {encoding : Encoding} {en : Entry} {bound : Nat}

/-!
## Starts and ends of statements

The first word of a statement tells what may stand before it.
-/

theorem ends_of_is {t : Token} {text : String} {more : List Token} (h : t.is text = true)
    (hstop : (!(["(", "\x7b", ":", "[", "."].contains text)
      && !(BinaryOp.all.map BinaryOp.sign).contains text && !([",", "="].contains text)) = true) :
    Ends (t :: more) := by
  simp only [Bool.and_eq_true] at hstop
  refine ⟨t, more, rfl, ?_, ?_⟩
  · rw [isStop_of_is h, hstop.1.1, hstop.1.2, Bool.and_self]
  · rw [isOneOf_of_is h]
    simpa using hstop.2

theorem ends_of_kind {t : Token} (hkind : t.kind ≠ .reserved) (hstring : t.kind ≠ .string)
    (more : List Token) : Ends (t :: more) := by
  have hno := fun texts => isOneOf_of_kind hkind texts
  refine ⟨t, more, rfl, ?_, hno _⟩
  rw [Token.isStop, Token.startsSuffix, hno, hno]
  simp [hstring]

theorem Closes.ends {rest : List Token} (h : Closes rest) :
    Ends rest ∧ sign ";" rest = .absent := by
  rcases h with ⟨t, more, rfl, ht⟩
  simp only [Token.closesBlock, Bool.or_eq_true, beq_iff_eq, Token.isOneOf, Bool.and_eq_true]
    at ht
  rcases ht with hfinish | ⟨hreserved, htext⟩
  · exact ⟨ends_of_kind (by simp [hfinish]) (by simp [hfinish]) more,
      sign_absent (is_eq_false_of_kind (by simp [hfinish]))⟩
  · have his : t.is t.text = true := is_of_eq hreserved rfl
    simp only [List.contains_eq_mem, List.mem_cons, List.not_mem_nil, or_false,
      decide_eq_true_eq] at htext
    rcases htext with htext | htext | htext | htext <;> rw [htext] at his <;>
      exact ⟨ends_of_is his (by decide), sign_absent (is_eq_false his (by decide))⟩

/-- Whether a word is the first one of an expression with suffixes: a parenthesis or a name. -/
def Expr.Heads (encoding : Encoding) (e : Expr) (word : String) : Prop :=
  if e.startsWithParen then word = "(" else Spelled encoding .name word

theorem heads_base {callee : Bool} (style : Style) (depth : Nat) : (e : Expr) →
    e.WellFormed encoding callee → ∃ word more,
      enclosed (e.inParens || !e.isPrefixed) (e.pieces style depth) = .token word :: more ∧
      e.Heads encoding word
  | .name n, he => by
      rw [Expr.pieces]
      exact ⟨n.text, [], rfl, he⟩
  | .member base indexer n, he => by
      rcases heads_base style depth base he.2.2.1 with ⟨word, more, heq, hword⟩
      rw [Expr.pieces, heq]
      exact ⟨word, _, rfl, hword⟩
  | .index base key, he => by
      rcases heads_base style depth base he.2.1 with ⟨word, more, heq, hword⟩
      rw [Expr.pieces, heq]
      exact ⟨word, _, rfl, hword⟩
  | .call base arguments inParens line, he => by
      rcases heads_base style depth base he.2.1 with ⟨word, more, heq, hword⟩
      rw [Expr.pieces, heq]
      cases inParens with
      | true => exact ⟨"(", _, rfl, rfl⟩
      | false => exact ⟨word, _, rfl, hword⟩
  | .string _, _ | .number .., _ | .boolean _, _ | .nil, _ | .vararg true _, _
  | .vararg false _, _ | .function .., _ | .table _, _ | .binary .., _ | .unary .., _ =>
      ⟨"(", _, rfl, rfl⟩

/-- The keywords and the sign that a statement may start with, less the parenthesis. -/
def statementWords : List String :=
  statementStarts.tail ++ ["return", "break"]

def Stat.Heads (encoding : Encoding) (s : Stat) (word : String) : Prop :=
  if s.startsWithParen then word = "("
  else Spelled encoding .name word ∨ word ∈ statementWords

theorem Expr.Heads.stat {s : Stat} {e : Expr} {word : String} (h : e.Heads encoding word)
    (hs : s.startsWithParen = e.startsWithParen) : s.Heads encoding word := by
  unfold Stat.Heads Expr.Heads at *
  rw [hs]
  split at h
  · rw [if_pos ‹_›]
    exact h
  · rw [if_neg ‹_›]
    exact Or.inl h

theorem heads_statement (style : Style) (depth : Nat) {s : Stat} (hs : s.WellFormed encoding) :
    ∃ word more, s.pieces style depth = .token word :: more ∧ s.Heads encoding word := by
  cases s with
  | label n => exact ⟨"::", _, rfl, Or.inr (by decide)⟩
  | goto n => exact ⟨"goto", _, rfl, Or.inr (by decide)⟩
  | leave => exact ⟨"break", _, rfl, Or.inr (by decide)⟩
  | ret values => cases values <;> rw [Stat.pieces] <;> exact ⟨"return", _, rfl, Or.inr (by decide)⟩
  | choice clauses =>
      rcases hs with ⟨hshape, _⟩
      cases clauses with
      | nil => cases hshape
      | cons c rest =>
          cases c with
          | first condition body =>
              rw [Stat.pieces, clausePieces, Clause.pieces]
              exact ⟨"if", _, rfl, Or.inr (by decide)⟩
          | _ => cases hshape
  | whileLoop condition body => rw [Stat.pieces]; exact ⟨"while", _, rfl, Or.inr (by decide)⟩
  | block body => rw [Stat.pieces]; exact ⟨"do", _, rfl, Or.inr (by decide)⟩
  | repeatLoop body condition => rw [Stat.pieces]; exact ⟨"repeat", _, rfl, Or.inr (by decide)⟩
  | locals vars values => rw [Stat.pieces]; exact ⟨"local", _, rfl, Or.inr (by decide)⟩
  | function isLocal name parameters body =>
      rw [Stat.pieces]
      cases isLocal with
      | false => exact ⟨"function", _, rfl, Or.inr (by decide)⟩
      | true => exact ⟨"local", _, rfl, Or.inr (by decide)⟩
  | forRange counter first last step body =>
      rw [Stat.pieces]; exact ⟨"for", _, rfl, Or.inr (by decide)⟩
  | forEach vars iterators body => rw [Stat.pieces]; exact ⟨"for", _, rfl, Or.inr (by decide)⟩
  | call e =>
      rcases hs with ⟨hcall, hparens, he⟩
      have hprefixed : e.isPrefixed = true := by
        cases e <;> simp_all [Expr.isCall, Expr.isPrefixed]
      rcases heads_base style depth e he with ⟨word, more, heq, hword⟩
      rw [hprefixed, Bool.not_true, Bool.or_false] at heq
      rw [Stat.pieces, heq]
      exact ⟨word, more, rfl, hword.stat rfl⟩
  | assign targets values =>
      rcases hs with ⟨htargets, _, hall, hwf, _⟩
      cases targets with
      | nil => exact absurd rfl htargets
      | cons e es =>
          simp only [List.all_cons, Bool.and_eq_true] at hall
          rcases heads_base style depth e hwf.1 with ⟨word, more, heq, hword⟩
          rw [(isTarget_facts hall.1).1, Bool.not_true, Bool.or_false] at heq
          rw [Stat.pieces, exprRows, commaSeparated_cons, heq]
          exact ⟨word, _, rfl, hword.stat rfl⟩

def Stat.Opens (s : Stat) (t : Token) : Prop :=
  if s.startsWithParen then t.is "(" = true
  else t.kind = .name ∨ t.isOneOf statementWords = true

theorem statementWords_reserved {word : String} (h : word ∈ statementWords) :
    word ∈ keywords ∨ word ∈ signs := by
  revert h word
  decide

theorem starts_statement {s : Stat} {depth : Nat} {ts : List Token} (hs : s.WellFormed encoding)
    (hreads : Reads (s.pieces style depth) ts) : ∃ t more, ts = t :: more ∧ s.Opens t := by
  rcases heads_statement style depth hs with ⟨word, ps, heq, hword⟩
  rw [heq] at hreads
  cases hparen : s.startsWithParen with
  | true =>
      rw [Stat.Heads, hparen] at hword
      cases hword
      rcases (reads_sign (Or.inr (by decide))).mp hreads with ⟨t, more, rfl, ht, _⟩
      refine ⟨t, more, rfl, ?_⟩
      rw [Stat.Opens, hparen]
      exact ht
  | false =>
      rw [Stat.Heads, hparen] at hword
      rcases hword with hname | hreserved
      · rcases (reads_word hname.alone).mp hreads with ⟨t, more, rfl, hkind, _, _⟩
        refine ⟨t, more, rfl, ?_⟩
        rw [Stat.Opens, hparen]
        exact Or.inl hkind
      · rcases (reads_sign (statementWords_reserved hreserved)).mp hreads with ⟨t, more, rfl, ht, _⟩
        refine ⟨t, more, rfl, ?_⟩
        rw [Stat.Opens, hparen, isOneOf_of_is ht]
        exact Or.inr (by simpa using hreserved)

theorem Stat.Opens.ends {s : Stat} {t : Token} (h : s.Opens t) (hs : s.startsWithParen = false)
    (more : List Token) : Ends (t :: more) ∧ sign ";" (t :: more) = .absent := by
  rw [Stat.Opens, hs] at h
  rcases h with hname | hone
  · exact ⟨ends_of_kind (by simp [hname]) (by simp [hname]) more,
      sign_absent (is_eq_false_of_kind (by simp [hname]))⟩
  · simp only [Token.isOneOf, Bool.and_eq_true, beq_iff_eq, List.contains_eq_mem,
      decide_eq_true_eq] at hone
    have his : t.is t.text = true := is_of_eq hone.1 rfl
    have htext := hone.2
    simp only [statementWords, statementStarts, List.tail_cons, List.cons_append, List.nil_append,
      List.mem_cons, List.not_mem_nil, or_false] at htext
    rcases htext with htext | htext | htext | htext | htext | htext | htext | htext | htext |
      htext | htext <;> rw [htext] at his <;>
      exact ⟨ends_of_is his (by decide), sign_absent (is_eq_false his (by decide))⟩

theorem Stat.Opens.sign_absent {s : Stat} {t : Token} (h : s.Opens t) (more : List Token) :
    sign ";" (t :: more) = .absent := by
  cases hparen : s.startsWithParen with
  | false => exact (h.ends hparen more).2
  | true =>
      rw [Stat.Opens, hparen] at h
      exact LuaBundle.Lua.sign_absent (is_eq_false h (by decide))

/-!
## Statements in a row
-/

theorem statement_found (H : en.Rereads style encoding bound) {s : Stat} {depth : Nat}
    {ts rest : List Token} (hs : s.WellFormed encoding) (hmiddle : s.isLast = false)
    (hreads : Reads (s.pieces style depth) ts) (hlength : ts.length ≤ bound) (hrest : Ends rest) :
    ∃ s', statement en (ts ++ rest) = .found s' rest ∧ s.ReadAs s' := by
  cases s with
  | label n => exact label_found hs hreads
  | goto n => exact goto_found hs hreads
  | leave => cases hmiddle
  | ret values => cases hmiddle
  | choice clauses => exact choice_found H hs hreads hlength
  | whileLoop condition body => exact whileLoop_found H hs hreads hlength
  | block body => exact doBlock_found H hs hreads hlength
  | repeatLoop body condition => exact repeatLoop_found H hs hreads hlength hrest
  | locals vars values => exact locals_found H hs hreads hlength hrest
  | assign targets values => exact assign_found H hs hreads hlength hrest
  | call e => exact call_found H hs hreads hlength hrest
  | function isLocal name parameters body =>
      cases isLocal with
      | false => exact functionDeclaration_found H hs hreads hlength
      | true => exact localFunction_found H hs hreads hlength
  | forRange counter first last step body => exact forRange_found H hs hreads hlength
  | forEach vars iterators body => exact forEach_found H hs hreads hlength

theorem terminated_found {p : Parser Stat} {ts mid rest : List Token} {s : Stat}
    {semicolon : Option Token} (h : p ts = .found s mid)
    (hsemicolon : LuaBundle.Lua.Parser.optional (sign ";") mid = .found semicolon rest) :
    terminated p ts = .found s rest :=
  (bind_found h).trans (bind_found hsemicolon)

/-- Whether tokens are read as the statements of a block, the last one apart. -/
def RowRead (en : Entry) (ts : List Token) (body : List Stat) (rest : List Token) : Prop :=
  ∃ body' mid last, Manys (terminated (statement en)) ts body' mid ∧
    LuaBundle.Lua.Parser.optional (terminated (lastStatement en)) mid = .found last rest ∧
    strippedBlock .binary (body' ++ last.toList) = strippedBlock regrouped body

theorem RowRead.nil {rest : List Token} (hrest : Closes rest) : RowRead en rest [] rest := by
  rcases hrest with ⟨t, more, rfl, ht⟩
  simp only [Token.closesBlock, Bool.or_eq_true, beq_iff_eq, Token.isOneOf, Bool.and_eq_true,
    List.contains_eq_mem, decide_eq_true_eq] at ht
  have hwords : t.kind ≠ .name ∧ (∀ text ∈ statementStarts, t.is text = false) ∧
      t.is "return" = false ∧ t.is "break" = false := by
    rcases ht with hfinish | ⟨hreserved, htext⟩
    · simp [hfinish, Token.is]
    · simp only [List.mem_cons, List.not_mem_nil, or_false] at htext
      refine ⟨by simp [hreserved], ?_⟩
      rcases htext with htext | htext | htext | htext <;>
        simp only [htext, Token.is, hreserved] <;> decide
  rcases hwords with ⟨hname, hstarts, hreturn, hbreak⟩
  exact ⟨[], t :: more, none, .stop (bind_absent (statement_absent hname hstarts)),
    optional_absent (bind_absent (lastStatement_absent hreturn hbreak)), rfl⟩

theorem RowRead.cons {ts mid rest : List Token} {s s' : Stat} {more : List Stat}
    (h : terminated (statement en) ts = .found s' mid) (hlength : mid.length < ts.length)
    (hread : s.ReadAs s') (hmore : RowRead en mid more rest) : RowRead en ts (s :: more) rest := by
  rcases hmore with ⟨body', mid', last, hmanys, hlast, hbody⟩
  exact ⟨s' :: body', mid', last, .more h hlength hmanys, hlast, congrArg₂ List.cons hread hbody⟩

theorem last_starts {s : Stat} {depth : Nat} {t : Token} {more : List Token}
    (hlast : s.isLast = true) (hreads : Reads (s.pieces style depth) (t :: more)) :
    t.is "return" = true ∨ t.is "break" = true := by
  cases s with
  | leave =>
      rw [Stat.pieces, reads_sign (Or.inl (by decide))] at hreads
      rcases hreads with ⟨_, _, heq, hword, _⟩
      cases heq
      exact Or.inr hword
  | ret values =>
      cases values <;>
      · rw [Stat.pieces, reads_sign (Or.inl (by decide : "return" ∈ keywords))] at hreads
        rcases hreads with ⟨_, _, heq, hword, _⟩
        cases heq
        exact Or.inl hword
  | _ => cases hlast

theorem RowRead.last (H : en.Rereads style encoding bound) {s : Stat} {depth : Nat} {t : Token}
    {inner rest : List Token} (hs : s.WellFormed encoding) (hlast : s.isLast = true)
    (hreads : Reads (s.pieces style depth) (t :: inner)) (hlength : inner.length < bound)
    (hrest : Closes rest) : RowRead en (t :: (inner ++ rest)) [s] rest := by
  have hsemicolon := (Closes.ends hrest).2
  rcases hrest with ⟨u, others, rfl, hu⟩
  rcases last_found H others hs hlast hreads hlength hu with ⟨s', hfound, hread⟩
  refine ⟨[], _, some s', .stop (bind_absent (statement_absent ?_ ?_)),
    optional_found (terminated_found hfound (optional_absent hsemicolon)),
    congrArg₂ List.cons hread rfl⟩
  · rcases last_starts hlast hreads with hword | hword <;> simp [(is_iff.mp hword).1]
  · intro text htext
    rcases last_starts hlast hreads with hword | hword <;>
      exact is_eq_false hword (by rintro rfl; revert htext; decide)

/-- A semicolon stands in front of a statement just if it follows another and starts with a
parenthesis. -/
theorem reads_statement {s : Stat} {ps : List Piece} {depth : Nat} {follows : Bool}
    {ts : List Token}
    (hreads : Reads ((if follows && s.startsWithParen then [.token ";"] else []) ++
      (s.pieces style depth ++ ps)) ts) :
    ∃ front tsS tsMore, ts = front ++ (tsS ++ tsMore) ∧ Reads (s.pieces style depth) tsS ∧
      Reads ps tsMore ∧ (follows = false → front = []) ∧
      ((∃ t, front = [t] ∧ t.is ";" = true) ∨
        front = [] ∧ (follows = true → s.startsWithParen = false)) := by
  cases hsemicolon : follows && s.startsWithParen with
  | true =>
      rw [hsemicolon, if_pos rfl, List.cons_append, List.nil_append,
        reads_sign (Or.inr (by decide))] at hreads
      rcases hreads with ⟨t, back, rfl, ht, hback⟩
      rcases reads_append.mp hback with ⟨tsS, tsMore, rfl, htsS, htsMore⟩
      refine ⟨[t], tsS, tsMore, rfl, htsS, htsMore, ?_, Or.inl ⟨t, rfl, ht⟩⟩
      rintro rfl
      cases hsemicolon
  | false =>
      rw [hsemicolon, if_neg Bool.false_ne_true, List.nil_append] at hreads
      rcases reads_append.mp hreads with ⟨tsS, tsMore, rfl, htsS, htsMore⟩
      refine ⟨[], tsS, tsMore, rfl, htsS, htsMore, fun _ => rfl, Or.inr ⟨rfl, ?_⟩⟩
      rintro rfl
      simpa using hsemicolon

theorem statements_found (H : en.Rereads style encoding bound) {body : List Stat} {depth : Nat}
    {follows : Bool} {ts rest : List Token} (hbody : blockWellFormed encoding body)
    (hreads : Reads (blockPieces style depth follows body) ts) (hlength : ts.length ≤ bound)
    (hrest : Closes rest) :
    ∃ semicolon back, LuaBundle.Lua.Parser.optional (sign ";") (ts ++ rest) =
        .found semicolon (back ++ rest) ∧ back.length ≤ ts.length ∧
      (follows = false → back = ts) ∧ (follows = true → Ends (ts ++ rest)) ∧
      RowRead en (back ++ rest) body rest := by
  induction body generalizing follows ts with
  | nil =>
      rw [blockPieces] at hreads
      cases hreads
      rcases hrest.ends with ⟨hends, hsemicolon⟩
      exact ⟨none, [], optional_absent hsemicolon, Nat.le_refl _, fun _ => rfl, fun _ => hends,
        .nil hrest⟩
  | cons s more ih =>
      rcases hbody with ⟨hs, hlast, hmore⟩
      rw [blockPieces, List.append_assoc, List.cons_append, reads_newline] at hreads
      rcases reads_statement hreads with ⟨front, tsS, tsMore, rfl, htsS, htsMore, hnone, hcases⟩
      simp only [List.length_append] at hlength
      rcases ih hmore htsMore (by omega) with ⟨semicolon, back, hsemicolon, hback, _, hends, hrow⟩
      rcases starts_statement hs htsS with ⟨t, inner, rfl, ht⟩
      simp only [List.length_cons] at hlength
      refine ⟨front.head?, t :: (inner ++ tsMore), ?_, ?_, ?_, ?_, ?_⟩
      · rcases hcases with ⟨u, rfl, hu⟩ | ⟨rfl, _⟩
        · exact optional_found (sign_found hu _)
        · exact optional_absent (ht.sign_absent _)
      · simp only [List.length_append, List.length_cons]
        omega
      · intro hfollows
        rw [hnone hfollows]
        rfl
      · intro hfollows
        rcases hcases with ⟨u, rfl, hu⟩ | ⟨rfl, hparen⟩
        · exact ends_of_is hu (by decide)
        · exact (ht.ends (hparen hfollows) _).1
      · cases hisLast : s.isLast with
        | false =>
            rcases statement_found H hs hisLast htsS (by simp only [List.length_cons]; omega)
              (hends rfl) with ⟨s', hfound, hread⟩
            have hterminated := terminated_found hfound hsemicolon
            simp only [List.cons_append, List.append_assoc] at hterminated ⊢
            refine .cons hterminated ?_ hread hrow
            simp only [List.length_append, List.length_cons]
            omega
        | true =>
            rcases hlast hisLast with rfl
            rw [blockPieces] at htsMore
            cases htsMore
            rw [List.append_nil]
            exact .last H hs hisLast htsS (by omega) hrest

theorem block_found (H : en.Rereads style encoding bound) {body : List Stat} {depth : Nat}
    {ts rest : List Token} (hbody : blockWellFormed encoding body)
    (hreads : Reads (blockPieces style depth false body) ts) (hlength : ts.length ≤ bound)
    (hrest : Closes rest) :
    ∃ body', block en (ts ++ rest) = .found body' rest ∧
      strippedBlock .binary body' = strippedBlock regrouped body := by
  rcases statements_found H hbody hreads hlength hrest with
    ⟨_, back, _, _, hback, _, hrow⟩
  rw [hback rfl] at hrow
  rcases hrow with ⟨body', mid, last, hmanys, hlast, hread⟩
  exact ⟨body' ++ last.toList, (bind_found (many_of_manys hmanys)).trans (bind_found hlast), hread⟩

end Blocks

/-!
## Whole sources
-/

/-- An entry reads everything that is printed with no more tokens than its depth. -/
theorem entry_rereads (style : Style) (encoding : Encoding) (depth : Nat) :
    (entry depth).Rereads style encoding depth := by
  induction depth with
  | zero =>
      exact ⟨fun _ _ _ h => absurd h (Nat.not_lt_zero _), fun h => absurd h (Nat.lt_irrefl 0),
        fun h => absurd h (Nat.lt_irrefl 0), fun _ _ h => absurd h (Nat.not_lt_zero _)⟩
  | succ depth ih =>
      exact {
        expr := fun he hwrapped hreads hlength hopen hrest =>
          expression_found ih he hwrapped hreads (Nat.le_of_lt_succ hlength) hopen hrest
        absent := fun _ ht => expression_absent ht
        named := fun _ ht hu => expression_named ht hu
        block := fun hbody hreads hlength hrest =>
          block_found ih hbody hreads (Nat.le_of_lt_succ hlength) hrest }

theorem program_found {style : Style} {encoding : Encoding} {body : List Stat} {ts : List Token}
    {t : Token} (hbody : blockWellFormed encoding body)
    (hreads : Reads (blockPieces style 0 false body) ts) (ht : t.kind = .finish) :
    ∃ body', program (ts ++ [t]) = .ok body' ∧
      strippedBlock .binary body' = strippedBlock regrouped body := by
  have hcloses : Closes [t] := ⟨t, [], rfl, by simp [Token.closesBlock, ht]⟩
  rcases (entry_rereads style encoding ((ts ++ [t]).length + 1)).block hbody hreads
    (by simp only [List.length_append]; omega) hcloses with ⟨body', hfound, hread⟩
  refine ⟨body', ?_, hread⟩
  have hsource : (do
      let body ← (entry ((ts ++ [t]).length + 1)).block
      let _ ← Parser.need (kind .finish)
      return body : Parser (List Stat)) (ts ++ [t]) = .found body' [] :=
    (bind_found hfound).trans (bind_found (need_found (kind_found ht [])))
  simp only [program, hsource]

end Lua
end LuaBundle
