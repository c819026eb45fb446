import LuaBundle.Proofs.Grammar.Rereads

/-!
# Reading printed values

The expressions without operators: tables, functions, and names and parentheses with their
suffixes.
-/

namespace LuaBundle
namespace Lua

open Text
open LuaBundle.Lua.Parser

section Values

variable {style : Style} {encoding : Encoding} {en : Entry} {bound : Nat}

theorem name_found {t : Token} {n : Name} (hkind : t.kind = .name) (htext : t.text = n.text)
    (rest : List Token) : name (t :: rest) = .found n.stripped rest := by
  refine (bind_found (kind_found hkind rest)).trans ?_
  rw [htext]
  rfl

theorem stripped_stripped (n : Name) : n.stripped.stripped = n.stripped :=
  rfl

/-!
## Tables
-/

theorem startsExpr_of_found (H : en.Rereads style encoding bound) {t : Token}
    {rest rest' : List Token}
    {p : Nat} {e : Expr} (hbound : 0 < bound) (h : en.expr p (t :: rest) = .found e rest') :
    t.startsExpr = true := by
  cases hstart : t.startsExpr with
  | true => rfl
  | false =>
      rw [H.absent hbound hstart] at h
      cases h

theorem positional_found (H : en.Rereads style encoding bound) {ts rest : List Token} {e : Expr}
    (hbound : 0 < bound) (hne : ts ≠ []) (hrest : sign "=" rest = .absent)
    (h : en.expr 1 (ts ++ rest) = .found e rest) :
    field en (ts ++ rest) = .found (.positional e) rest := by
  cases ts with
  | nil => exact absurd rfl hne
  | cons t more =>
      rw [List.cons_append] at h ⊢
      have hbracket : t.is "[" = false := by
        cases his : t.is "[" with
        | false => rfl
        | true =>
            have hstart := startsExpr_of_found H hbound h
            rw [startsExpr_of_is his] at hstart
            exact absurd hstart (by decide)
      have hnamed : (do
          let key ← name
          let _ ← sign "="
          let value ← Parser.need (en.expr 1)
          return Field.named key value) (t :: (more ++ rest)) = .absent := by
        by_cases hkind : t.kind = .name
        · have hequals : sign "=" (more ++ rest) = .absent := by
            cases more with
            | nil => exact hrest
            | cons u more =>
                cases his : u.is "=" with
                | false => exact sign_absent his
                | true =>
                    -- The expression would have ended in front of the sign.
                    rcases H.named hbound hkind his with ⟨e', hnamed⟩
                    rw [List.cons_append, hnamed] at h
                    have hlength := congrArg (fun
                      | Outcome.found _ rest => rest.length
                      | _ => 0) h
                    simp only [List.length_cons, List.length_append] at hlength
                    omega
          have hname : name (t :: (more ++ rest)) = .found { text := t.text } (more ++ rest) :=
            bind_found (kind_found hkind _)
          exact (bind_found hname).trans (bind_absent hequals)
        · exact bind_absent (name_absent hkind)
      refine (orElse_absent (bind_absent (sign_absent hbracket))).trans ?_
      refine (orElse_absent hnamed).trans ?_
      exact bind_found h

/-- Whether a token stands behind a field: a comma, or the brace that closes the table. -/
def Token.endsField (t : Token) : Bool :=
  t.isOneOf [",", "\x7d"]

theorem endsField_cases {t : Token} (h : t.endsField = true) :
    t.is "," = true ∨ t.is "\x7d" = true := by
  simp only [Token.endsField, Token.isOneOf, Bool.and_eq_true, beq_iff_eq, List.contains_eq_mem,
    List.mem_cons, List.not_mem_nil, or_false, decide_eq_true_eq] at h
  rcases h with ⟨hkind, htext | htext⟩
  · exact Or.inl (is_of_eq hkind htext)
  · exact Or.inr (is_of_eq hkind htext)

theorem endsField_of_is {t : Token} {text : String} (h : t.is text = true)
    (hmem : [",", "\x7d"].contains text = true) : t.endsField = true :=
  (isOneOf_of_is h _).trans hmem

theorem stops_of_endsField {t : Token} (h : t.endsField = true) (more : List Token) :
    Stops (t :: more) := by
  rcases endsField_cases h with h | h
  · exact stops_of_is _ h (by decide)
  · exact stops_of_is _ h (by decide)

theorem startsExpr_of_endsField {t : Token} (h : t.endsField = true) : t.startsExpr = false := by
  rcases endsField_cases h with h | h
  · exact (startsExpr_of_is h).trans (by decide)
  · exact (startsExpr_of_is h).trans (by decide)

theorem field_found (H : en.Rereads style encoding bound) {f : Field} {depth : Nat}
    {ts more : List Token} {t : Token} (hf : f.WellFormed encoding)
    (hreads : Reads (f.pieces style depth) ts) (hlength : ts.length < bound)
    (ht : t.endsField = true) :
    ∃ f', field en (ts ++ t :: more) = .found f' (t :: more) ∧
      f'.stripped .binary = f.stripped regrouped := by
  have hstops : Stops (t :: more) := stops_of_endsField ht more
  cases f with
  | keyed key value =>
      simp (disch := decide) only [Field.pieces, spacedSign, List.cons_append, List.nil_append,
        List.append_assoc, reads_append, reads_gap, reads_sign] at hreads
      rcases hreads with ⟨opening, _, rfl, hopening, tsKey, _, rfl, hkey, closing, _, rfl, hclosing,
        equals, tsValue, rfl, hequals, hvalue⟩
      simp only [List.length_cons, List.length_append] at hlength
      rcases H.free hf.1 hkey (by omega) (stops_of_is _ hclosing (by decide)) with
        ⟨key', hkeyFound, hkeyRead⟩
      rcases H.free hf.2 hvalue (by omega) hstops with ⟨value', hvalueFound, hvalueRead⟩
      refine ⟨.keyed key' value', ?_, congrArg₂ Field.keyed hkeyRead hvalueRead⟩
      simp only [List.cons_append, List.append_assoc]
      refine orElse_found ?_
      refine (bind_found (sign_found hopening _)).trans ?_
      refine (bind_found (need_found hkeyFound)).trans ?_
      refine (bind_found (need_found (sign_found hclosing _))).trans ?_
      refine (bind_found (need_found (sign_found hequals _))).trans ?_
      exact bind_found (need_found hvalueFound)
  | named n value =>
      simp (disch := decide) only [Field.pieces, spacedSign, List.cons_append, List.nil_append,
        reads_word hf.1.alone, reads_gap, reads_sign] at hreads
      rcases hreads with ⟨key, _, rfl, hkind, htext, equals, tsValue, rfl, hequals, hvalue⟩
      simp only [List.length_cons] at hlength
      rcases H.free hf.2 hvalue (by omega) hstops with ⟨value', hvalueFound, hvalueRead⟩
      refine ⟨.named n.stripped value', ?_, congrArg₂ Field.named (stripped_stripped n) hvalueRead⟩
      have hbracket : key.is "[" = false := is_eq_false_of_kind (by simp [hkind])
      simp only [List.cons_append]
      refine (orElse_absent (bind_absent (sign_absent hbracket))).trans ?_
      refine orElse_found ?_
      refine (bind_found (name_found hkind htext _)).trans ?_
      refine (bind_found (sign_found hequals _)).trans ?_
      exact bind_found (need_found hvalueFound)
  | positional value =>
      rw [Field.pieces] at hreads
      rcases H.free hf hreads hlength hstops with ⟨value', hfound, hread⟩
      have hne : ts ≠ [] := by
        rintro rfl
        have hstart := startsExpr_of_found H hlength hfound
        rw [startsExpr_of_endsField ht] at hstart
        exact absurd hstart (by decide)
      have hequals : sign "=" (t :: more) = .absent := by
        rcases endsField_cases ht with ht | ht
        · exact sign_absent (is_eq_false ht (by decide))
        · exact sign_absent (is_eq_false ht (by decide))
      exact ⟨.positional value', positional_found H (by omega) hne hequals hfound,
        congrArg Field.positional hread⟩

theorem field_absent (H : en.Rereads style encoding bound) (hbound : 0 < bound) {t : Token}
    {rest : List Token} (ht : t.is "\x7d" = true) : field en (t :: rest) = .absent := by
  have hstart : t.startsExpr = false := (startsExpr_of_is ht).trans (by decide)
  refine (orElse_absent (bind_absent (sign_absent (is_eq_false ht (by decide))))).trans ?_
  refine (orElse_absent (bind_absent (name_absent ?_))).trans ?_
  · rw [(is_iff.mp ht).1]
    decide
  · exact bind_absent (H.absent hbound hstart)

/-- The tokens of the fields of a table.  Each field has a comma behind it, only the last may
go without. -/
inductive FieldTokens : List (List Piece) → List Token → Prop where
  | nil : FieldTokens [] []
  | last {row ts} (h : Reads row ts) : FieldTokens [row] ts
  | more {row rows front t back} (h : Reads row front) (ht : t.is "," = true)
      (hmore : FieldTokens rows back) : FieldTokens (row :: rows) (front ++ t :: back)

theorem fieldTokens_spread {depth : Nat} {rows : List (List Piece)} {ts : List Token}
    (hreads : Reads (rows.flatMap fun row => .newline depth :: row ++ [.token ","]) ts) :
    FieldTokens rows ts := by
  induction rows generalizing ts with
  | nil =>
      cases hreads
      exact .nil
  | cons row rows ih =>
      rw [List.flatMap_cons, List.append_assoc, List.cons_append, reads_newline] at hreads
      rcases reads_append.mp hreads with ⟨front, back, rfl, hfront, hback⟩
      rcases (reads_sign (Or.inr (by decide))).mp hback with ⟨comma, back, rfl, hcomma, hback⟩
      exact .more hfront hcomma (ih hback)

theorem fieldTokens_tight {rows : List (List Piece)} {ts : List Token}
    (hreads : Reads ([Piece.token ","].intercalate rows) ts) : FieldTokens rows ts := by
  induction rows generalizing ts with
  | nil =>
      cases hreads
      exact .nil
  | cons row rows ih =>
      cases rows with
      | nil =>
          rw [List.intercalate_singleton] at hreads
          exact .last hreads
      | cons next rows =>
          rw [List.intercalate_cons_cons] at hreads
          rw [List.append_assoc] at hreads
          rcases reads_append.mp hreads with ⟨front, back, rfl, hfront, hback⟩
          rcases (reads_sign (Or.inr (by decide))).mp hback with ⟨comma, back, rfl, hcomma, hback⟩
          exact .more hfront hcomma (ih hback)

theorem fieldsIn_found (H : en.Rereads style encoding bound) {fs : List Field} {depth fuel : Nat}
    {ts : List Token} (rest : List Token) {t : Token} (hbound : 0 < bound)
    (hfs : fieldsWellFormed encoding fs)
    (htokens : FieldTokens (fieldRows style depth fs) ts)
    (hlength : ts.length < bound) (hfuel : ts.length < fuel) (ht : t.is "\x7d" = true) :
    ∃ fs', fieldsIn en fuel (ts ++ t :: rest) = .found fs' (t :: rest) ∧
      strippedFields .binary fs' = strippedFields regrouped fs := by
  induction fs generalizing ts fuel with
  | nil =>
      cases htokens
      cases fuel with
      | zero => exact absurd hfuel (Nat.not_lt_zero _)
      | succ fuel =>
          exact ⟨[], bind_found (optional_absent (field_absent H hbound ht)), rfl⟩
  | cons f more ih =>
      rw [fieldRows] at htokens
      cases fuel with
      | zero => exact absurd hfuel (Nat.not_lt_zero _)
      | succ fuel =>
          generalize hrows : fieldRows style depth more = rows at htokens
          cases htokens with
          | last hrow =>
              have hnone : more = [] := by
                cases more with
                | nil => rfl
                | cons next more => rw [fieldRows] at hrows; cases hrows
              subst hnone
              rcases @field_found _ _ _ _ H f depth ts rest t hfs.1 hrow hlength
                (endsField_of_is ht (by decide)) with ⟨f', hfound, hread⟩
              refine ⟨[f'], ?_, congrArg₂ List.cons hread rfl⟩
              have hno : (sign "," <|> sign ";") (t :: rest) = .absent :=
                (orElse_absent (sign_absent (is_eq_false ht (by decide)))).trans
                  (sign_absent (is_eq_false ht (by decide)))
              refine (bind_found (optional_found hfound)).trans ?_
              exact bind_found (optional_absent hno)
          | @more row rows front comma back hrow hcomma hback =>
              simp only [List.length_append, List.length_cons] at hlength hfuel
              rcases @field_found _ _ _ _ H f depth front (back ++ t :: rest) comma hfs.1 hrow
                (by omega) (endsField_of_is hcomma (by decide)) with ⟨f', hfound, hread⟩
              rw [← hrows] at hback
              rcases @ih fuel back hfs.2 hback (by omega) (by omega) with ⟨fs', hmore, hreads⟩
              refine ⟨f' :: fs', ?_, congrArg₂ List.cons hread hreads⟩
              rw [List.append_assoc, List.cons_append]
              refine (bind_found (optional_found hfound)).trans ?_
              refine (bind_found (optional_found (orElse_found (sign_found hcomma _)))).trans ?_
              exact bind_found hmore

theorem reads_table {rows : List (List Piece)} {depth : Nat} {ts : List Token}
    (hreads : Reads (tablePieces style depth rows) ts) :
    ∃ t inner u, ts = t :: (inner ++ [u]) ∧ t.is "\x7b" = true ∧ FieldTokens rows inner ∧
      u.is "\x7d" = true := by
  have hclosing : ∀ {more : List Token}, Reads [.token "\x7d"] more →
      ∃ u, more = [u] ∧ u.is "\x7d" = true := by
    intro more hmore
    rcases (reads_sign (Or.inr (by decide))).mp hmore with ⟨u, more, rfl, hu, hmore⟩
    cases hmore
    exact ⟨u, rfl, hu⟩
  cases rows with
  | nil =>
      have hempty : tablePieces style depth [] = [.token "\x7b", .token "\x7d"] := by
        cases style <;> rfl
      rw [hempty] at hreads
      rcases (reads_sign (Or.inr (by decide))).mp hreads with ⟨t, back, rfl, ht, hback⟩
      rcases hclosing hback with ⟨u, rfl, hu⟩
      exact ⟨t, [], u, rfl, ht, .nil, hu⟩
  | cons row rows =>
      cases style with
      | pretty =>
          rcases (reads_sign (Or.inr (by decide))).mp hreads with ⟨t, back, rfl, ht, hback⟩
          rcases reads_append.mp hback with ⟨inner, back, rfl, hinner, hback⟩
          rcases hclosing (reads_newline.mp hback) with ⟨u, rfl, hu⟩
          exact ⟨t, inner, u, rfl, ht, fieldTokens_spread hinner, hu⟩
      | compact =>
          rcases (reads_sign (Or.inr (by decide))).mp hreads with ⟨t, back, rfl, ht, hback⟩
          rcases reads_append.mp hback with ⟨inner, back, rfl, hinner, hback⟩
          rcases hclosing hback with ⟨u, rfl, hu⟩
          exact ⟨t, inner, u, rfl, ht, fieldTokens_tight hinner, hu⟩

theorem tableFields_found (H : en.Rereads style encoding bound) {fs : List Field} {depth : Nat}
    {ts : List Token} (hfs : fieldsWellFormed encoding fs)
    (hreads : Reads (tablePieces style depth (fieldRows style (depth + 1) fs)) ts)
    (hlength : ts.length ≤ bound) (rest : List Token) :
    ∃ fs' line, tableFields en (ts ++ rest) = .found (fs', line) rest ∧
      strippedFields .binary fs' = strippedFields regrouped fs := by
  rcases reads_table hreads with ⟨t, inner, u, rfl, ht, hinner, hu⟩
  simp only [List.length_cons, List.length_append, List.length_nil] at hlength
  have hfuel : inner.length < (inner ++ u :: rest).length := by simp
  rcases fieldsIn_found H rest (by omega) hfs hinner (by omega) hfuel hu with
    ⟨fs', hfound, hread⟩
  refine ⟨fs', t.line, ?_, hread⟩
  rw [List.cons_append, List.append_assoc, List.singleton_append]
  refine (bind_found (sign_found ht _)).trans ?_
  refine (bind_found hfound).trans ?_
  exact bind_found (need_found (sign_found hu rest))

/-!
## Functions
-/

theorem parameters_split {ps : List Expr} (h : Parameters encoding ps) :
    ∃ names last, ps = List.map Expr.name names ++ last ∧
      (∀ n ∈ names, Spelled encoding .name n.text) ∧
      (last = [] ∨ ∃ line, last = [.vararg false line]) := by
  induction ps with
  | nil => exact ⟨[], [], rfl, by simp, Or.inl rfl⟩
  | cons e rest ih =>
      cases e with
      | name n =>
          have hparts : Spelled encoding .name n.text ∧ Parameters encoding rest := by
            cases rest <;> exact h
          rcases ih hparts.2 with ⟨names, last, rfl, hnames, hlast⟩
          exact ⟨n :: names, last, rfl, by simpa using ⟨hparts.1, hnames⟩, hlast⟩
      | vararg inParens line =>
          cases rest with
          | nil =>
              have hparens : inParens = false := h
              exact ⟨[], [.vararg inParens line], rfl, by simp, Or.inr ⟨line, by rw [hparens]⟩⟩
          | cons _ _ => exact h.elim
      | _ => cases rest <;> exact h.elim

theorem strippedExprs_names (join : BinaryOp → Expr → Expr → Expr) (names : List Name)
    (last : List Expr) :
    strippedExprs join (names.map Expr.name ++ last) =
      (names.map Name.stripped).map Expr.name ++ strippedExprs join last := by
  induction names with
  | nil => rfl
  | cons n rest ih =>
      rw [List.map_cons, List.cons_append, strippedExprs, ih]
      rfl

theorem rest_found {t : Token} (h : t.is "..." = true) (more : List Token) :
    rest (t :: more) = .found (.vararg false t.line) more :=
  bind_found (sign_found h more)

theorem name_item (n : Name) (halone : Alone .name n.text) {ts : List Token}
    (hreads : Reads [.token n.text] ts) (more : List Token) :
    name (ts ++ more) = .found n.stripped more := by
  rcases (reads_word halone).mp hreads with ⟨t, back, rfl, hkind, htext, hback⟩
  cases hback
  exact name_found hkind htext more

theorem parameters_found {ps : List Expr} {depth : Nat} {ts more : List Token} {t : Token}
    (hps : Parameters encoding ps)
    (hreads : Reads (commaSeparated (exprRows style depth ps)) ts) (ht : t.is ")" = true) :
    ∃ ps', parameters (ts ++ t :: more) = .found ps' (t :: more) ∧
      strippedExprs .binary ps' = strippedExprs regrouped ps := by
  rcases parameters_split hps with ⟨names, last, rfl, hnames, hlast⟩
  have hnone : sign "..." (t :: more) = .absent := sign_absent (is_eq_false ht (by decide))
  have hcomma : sign "," (t :: more) = .absent := sign_absent (is_eq_false ht (by decide))
  have hreserved : ∀ {u : Token} {text : String}, u.is text = true → u.kind ≠ .name := by
    intro u text hu
    rw [(is_iff.mp hu).1]
    decide
  rw [exprRows_eq_map, List.map_append, List.map_map] at hreads
  cases names with
  | nil =>
      rcases hlast with rfl | ⟨line, rfl⟩
      · cases hreads
        refine ⟨[], ?_, rfl⟩
        refine (orElse_absent (bind_absent (bind_absent (name_absent (hreserved ht))))).trans ?_
        exact bind_found (optional_absent (bind_absent hnone))
      · change Reads ([.token "..."] ++ []) ts at hreads
        rw [List.append_nil, reads_sign (Or.inr (by decide))] at hreads
        rcases hreads with ⟨v, back, rfl, hv, hback⟩
        cases hback
        refine ⟨[.vararg false v.line], ?_, rfl⟩
        refine (orElse_absent (bind_absent (bind_absent (name_absent (hreserved hv))))).trans ?_
        exact bind_found (optional_found (rest_found hv _))
  | cons n names =>
      rw [List.map_cons, List.cons_append, commaSeparated_cons, List.flatMap_append] at hreads
      rcases reads_append.mp hreads with ⟨front, back, rfl, hfront, hback⟩
      rcases reads_append.mp hback with ⟨middle, tail, rfl, hmiddle, htail⟩
      have hfirst := name_item n (hnames n (by simp)).alone hfront (middle ++ (tail ++ t :: more))
      have hitem : ∀ item ∈ names, ∀ ts more, Reads [.token item.text] ts →
          ts.length < middle.length + 1 → True →
          ∃ a, name (ts ++ more) = .found a more ∧ item.stripped = a := by
        intro item hitem ts more hts _ _
        exact ⟨_, name_item item (hnames item (by simp [hitem])).alone hts more, rfl⟩
      -- Either nothing follows the names, or a comma and the mark of further arguments.
      have hend : ∃ last', (do let _ ← sign ","; name) (tail ++ t :: more) = .absent ∧
          LuaBundle.Lua.Parser.optional (do let _ ← sign ","; rest) (tail ++ t :: more) =
            .found last' (t :: more) ∧
          strippedExprs .binary last'.toList = strippedExprs regrouped last := by
        rcases hlast with rfl | ⟨line, rfl⟩
        · cases htail
          exact ⟨none, bind_absent hcomma, optional_absent (bind_absent hcomma), rfl⟩
        · change Reads (.token "," :: .gap :: .token "..." :: []) tail at htail
          simp (disch := decide) only [reads_sign, reads_gap, reads_nil] at htail
          rcases htail with ⟨c, _, rfl, hc, v, _, rfl, hv, rfl⟩
          refine ⟨some (.vararg false v.line), ?_, ?_, rfl⟩
          · exact (bind_found (sign_found hc _)).trans (name_absent (hreserved hv))
          · exact optional_found ((bind_found (sign_found hc _)).trans (rest_found hv _))
      rcases hend with ⟨last', hstop, hlast', hread⟩
      rcases manys_commas _ (fun _ _ _ => trivial) hitem trivial hstop hmiddle (Nat.le_succ _) with
        ⟨as, hmanys, hgoods⟩
      have has : names.map Name.stripped = as := by
        have hsame := map_eq_of_forall₂ hgoods
        rwa [List.map_id'] at hsame
      refine ⟨(n.stripped :: as).map Expr.name ++ last'.toList, ?_, ?_⟩
      · refine orElse_found ?_
        simp only [List.append_assoc]
        have hseparated : separated name (front ++ (middle ++ (tail ++ t :: more))) =
            .found (n.stripped :: as) (tail ++ t :: more) :=
          (bind_found hfirst).trans (bind_found (many_of_manys hmanys))
        refine (bind_found hseparated).trans ?_
        exact bind_found hlast'
      · rw [strippedExprs_names, strippedExprs_names, hread, ← has, List.map_cons, List.map_cons,
          List.map_map]
        simp only [List.map_cons, List.map_map, Function.comp_def, stripped_stripped]

theorem functionBody_found (H : en.Rereads style encoding bound) {ps : List Expr} {body : List Stat}
    {depth : Nat} {ts : List Token} (hps : Parameters encoding ps)
    (hbody : blockWellFormed encoding body)
    (hreads : Reads (.token "(" :: (commaSeparated (exprRows style depth ps) ++ .token ")"
      :: closedBody depth "end" body (blockPieces style (depth + 1) false body))) ts)
    (hlength : ts.length ≤ bound) (rest : List Token) :
    ∃ ps' body', functionBody en (ts ++ rest) = .found (ps', body') rest ∧
      strippedExprs .binary ps' = strippedExprs regrouped ps ∧
      strippedBlock .binary body' = strippedBlock regrouped body := by
  simp (disch := decide) only [reads_sign, reads_append] at hreads
  rcases hreads with ⟨opening, _, rfl, hopening, tsPs, _, rfl, htsPs, closing, _, rfl, hclosing,
    hclosed⟩
  rcases reads_closedBody (by decide) hclosed with ⟨inner, last, rfl, hinner, hlast⟩
  simp only [List.length_cons, List.length_append, List.length_nil] at hlength
  rcases @parameters_found _ _ ps depth tsPs (inner ++ last :: rest) closing hps htsPs hclosing with
    ⟨ps', hpsFound, hpsRead⟩
  have hcloses : Closes (last :: rest) := closes_of_is _ hlast (by decide)
  rcases H.block hbody hinner (by omega) hcloses with
    ⟨body', hbodyFound, hbodyRead⟩
  refine ⟨ps', body', ?_, hpsRead, hbodyRead⟩
  simp only [List.cons_append, List.append_assoc, List.nil_append]
  refine (bind_found (need_found (sign_found hopening _))).trans ?_
  refine (bind_found hpsFound).trans ?_
  refine (bind_found (need_found (sign_found hclosing _))).trans ?_
  refine (bind_found hbodyFound).trans ?_
  exact bind_found (need_found (sign_found hlast rest))

/-!
## Suffixes
-/

theorem arguments_found (H : en.Rereads style encoding bound) {arguments : Args} {depth : Nat}
    {ts : List Token} (harguments : arguments.WellFormed encoding)
    (hreads : Reads (arguments.pieces style depth) ts) (hlength : ts.length ≤ bound)
    (rest : List Token) :
    ∃ arguments' line, Lua.arguments en (ts ++ rest) = .found (arguments', line) rest ∧
      arguments'.stripped .binary = arguments.stripped regrouped := by
  cases arguments with
  | list es =>
      simp (disch := decide) only [Args.pieces, List.cons_append, reads_sign, reads_append,
        reads_nil] at hreads
      rcases hreads with ⟨t, _, rfl, ht, inner, _, rfl, hinner, u, _, rfl, hu, rfl⟩
      simp only [List.length_cons, List.length_append, List.length_nil] at hlength
      rcases expressions_found H harguments hinner (by omega)
        ((isStop_of_is hu).trans (by decide)) ((startsExpr_of_is hu).trans (by decide))
        (is_eq_false hu (by decide)) rest with ⟨es', hfound, hread⟩
      refine ⟨.list es', t.line, ?_, congrArg Args.list hread⟩
      simp only [List.cons_append, List.append_assoc, List.nil_append]
      refine orElse_found ?_
      refine (bind_found (sign_found ht _)).trans ?_
      refine (bind_found hfound).trans ?_
      exact bind_found (need_found (sign_found hu rest))
  | table fields =>
      rw [Args.pieces] at hreads
      rcases tableFields_found H harguments hreads hlength rest with ⟨fs', line, hfound, hread⟩
      refine ⟨.table fs', line, ?_, congrArg Args.table hread⟩
      rcases reads_table hreads with ⟨t, inner, u, rfl, ht, _, _⟩
      have hparen : sign "(" (t :: (inner ++ [u]) ++ rest) = .absent :=
        sign_absent (is_eq_false ht (by decide))
      refine (orElse_absent (bind_absent hparen)).trans ?_
      refine orElse_found ?_
      exact bind_found hfound
  | string literal =>
      rw [Args.pieces, reads_word harguments.alone] at hreads
      rcases hreads with ⟨t, _, rfl, hkind, htext, hback⟩
      cases hback
      refine ⟨.string ⟨t.text, t.line⟩, t.line, ?_, ?_⟩
      · have hno : ∀ text, sign text (t :: rest) = .absent := fun text =>
          sign_absent (is_eq_false_of_kind (by simp [hkind]))
        refine (orElse_absent (bind_absent (hno _))).trans ?_
        refine (orElse_absent (bind_absent (bind_absent (hno _)))).trans ?_
        exact bind_found (bind_found (kind_found hkind rest))
      · rw [htext]
        rfl

def suffixStart (e : Entry) : Parser Suffixed :=
  (do let inner ← paren e; return ⟨inner, .paren⟩)
  <|> (do let name ← name; return ⟨.name name, .name⟩)

/-- Whether reading reaches an expression by suffixes, with some tokens left. -/
def Suffixes (en : Entry) (ts : List Token) (s : Suffixed) (rest : List Token) : Prop :=
  ∃ start mid, suffixStart en ts = .found start mid ∧ Grows (suffix en) start mid s rest

def Expr.ending : Expr → Ending
  | .name _ => .name
  | .call .. => .call
  | _ => .index

theorem Suffixes.step {s s' : Suffixed} {ts back rest : List Token}
    (h : Suffixes en ts s (back ++ rest)) (hstep : suffix en s (back ++ rest) = .found s' rest)
    (hne : back ≠ []) : Suffixes en ts s' rest := by
  rcases h with ⟨start, first, hstart, hgrows⟩
  refine ⟨start, first, hstart, hgrows.last hstep ?_⟩
  have hpositive := List.length_pos_of_ne_nil hne
  simp only [List.length_append]
  omega

theorem suffixed_of_suffixes {s : Suffixed} {ts rest : List Token} (h : Suffixes en ts s rest)
    (hrest : ∀ t ∈ rest.head?, t.startsSuffix = false) : suffixed en ts = .found s rest := by
  rcases h with ⟨start, mid, hstart, hgrows⟩
  exact (bind_found hstart).trans (grow_of_grows hgrows (suffix_absent s hrest))

theorem arguments_absent_of_is {t : Token} {text : String} (ht : t.is text = true)
    (hparen : text ≠ "(") (hbrace : text ≠ "\x7b") (rest : List Token) :
    Lua.arguments en (t :: rest) = .absent := by
  refine arguments_absent ?_ (is_eq_false ht hparen) (is_eq_false ht hbrace)
  simp [(is_iff.mp ht).1]

theorem call_step (H : en.Rereads style encoding bound) {arguments : Args} {depth : Nat}
    {ts : List Token} (harguments : arguments.WellFormed encoding)
    (hreads : Reads (arguments.pieces style depth) ts) (hlength : ts.length ≤ bound)
    (s : Suffixed) (rest : List Token) :
    ∃ arguments' line, suffix en s (ts ++ rest) =
        .found ⟨.call s.expr arguments' false line, .call⟩ rest ∧ ts ≠ [] ∧
      arguments'.stripped .binary = arguments.stripped regrouped := by
  rcases arguments_found H harguments hreads hlength rest with ⟨arguments', line, hfound, hread⟩
  refine ⟨arguments', line, orElse_found (bind_found hfound), ?_, hread⟩
  rintro rfl
  cases arguments with
  | list es =>
      rcases (reads_sign (Or.inr (by decide))).mp hreads with ⟨_, _, h, _⟩
      cases h
  | table fields =>
      rcases reads_table hreads with ⟨_, _, _, h, _⟩
      cases h
  | string literal =>
      rcases (reads_word harguments.alone).mp hreads with ⟨_, _, h, _⟩
      cases h

theorem method_step (H : en.Rereads style encoding bound) {arguments : Args} {n : Name}
    {depth : Nat}
    {ts : List Token} (hn : Alone .name n.text) (harguments : arguments.WellFormed encoding)
    (hreads : Reads (.token ":" :: .token n.text :: arguments.pieces style depth) ts)
    (hlength : ts.length ≤ bound) (s : Suffixed) (rest : List Token) :
    ∃ arguments' line, suffix en s (ts ++ rest) =
        .found ⟨.call (.member s.expr .colon n.stripped) arguments' false line, .call⟩ rest ∧
      ts ≠ [] ∧ arguments'.stripped .binary = arguments.stripped regrouped := by
  simp (disch := decide) only [reads_sign, reads_word hn] at hreads
  rcases hreads with ⟨t, _, rfl, ht, u, tail, rfl, hkind, htext, htail⟩
  simp only [List.length_cons] at hlength
  rcases arguments_found H harguments htail (by omega) rest with ⟨arguments', line, hfound, hread⟩
  refine ⟨arguments', line, ?_, by simp, hread⟩
  have hno := @arguments_absent_of_is en t _ ht (by decide) (by decide)
  simp only [List.cons_append]
  refine (orElse_absent (bind_absent (hno _))).trans ?_
  refine orElse_found ?_
  refine (bind_found (sign_found ht _)).trans ?_
  refine (bind_found (need_found (name_found hkind htext _))).trans ?_
  exact bind_found (need_found hfound)

theorem index_step (H : en.Rereads style encoding bound) {key : Expr} {depth : Nat}
    {ts : List Token}
    (hkey : key.WellFormed encoding false)
    (hreads : Reads (.token "[" :: (enclosed key.inParens (key.pieces style depth)
      ++ [.token "]"])) ts)
    (hlength : ts.length ≤ bound) (s : Suffixed) (rest : List Token) :
    ∃ key', suffix en s (ts ++ rest) = .found ⟨.index s.expr key', .index⟩ rest ∧ ts ≠ [] ∧
      key.ReadAs key' := by
  simp (disch := decide) only [reads_sign, reads_append, reads_nil] at hreads
  rcases hreads with ⟨t, _, rfl, ht, inner, _, rfl, hinner, u, _, rfl, hu, rfl⟩
  simp only [List.length_cons, List.length_append, List.length_nil] at hlength
  have hstops : Stops (u :: rest) := stops_of_is _ hu (by decide)
  rcases H.free hkey hinner (by omega) hstops with ⟨key', hfound, hread⟩
  refine ⟨key', ?_, by simp, hread⟩
  have hno := @arguments_absent_of_is en t _ ht (by decide) (by decide)
  simp only [List.cons_append, List.append_assoc, List.nil_append]
  refine (orElse_absent (bind_absent (hno _))).trans ?_
  refine (orElse_absent (bind_absent (sign_absent (is_eq_false ht (by decide))))).trans ?_
  refine orElse_found ?_
  refine (bind_found (sign_found ht _)).trans ?_
  refine (bind_found (need_found hfound)).trans ?_
  exact bind_found (need_found (sign_found hu rest))

theorem member_step {n : Name} {ts : List Token} (hn : Alone .name n.text)
    (hreads : Reads [.token ".", .token n.text] ts) (s : Suffixed) (rest : List Token) :
    suffix en s (ts ++ rest) = .found ⟨.member s.expr .dot n.stripped, .index⟩ rest ∧ ts ≠ [] := by
  simp (disch := decide) only [reads_sign, reads_word hn, reads_nil] at hreads
  rcases hreads with ⟨t, _, rfl, ht, u, _, rfl, hkind, htext, rfl⟩
  refine ⟨?_, by simp⟩
  have hno := @arguments_absent_of_is en t _ ht (by decide) (by decide)
  refine (orElse_absent (bind_absent (hno _))).trans ?_
  refine (orElse_absent (bind_absent (sign_absent (is_eq_false ht (by decide))))).trans ?_
  refine (orElse_absent (bind_absent (sign_absent (is_eq_false ht (by decide))))).trans ?_
  refine (bind_found (sign_found ht _)).trans ?_
  exact bind_found (need_found (name_found hkind htext rest))

theorem suffixes_enclosed (H : en.Rereads style encoding bound) {e : Expr} {depth : Nat}
    {ts : List Token} (he : e.WellFormed encoding false) (hwrapped : e.Wrapped true)
    (hreads : Reads (enclosed true (e.pieces style depth)) ts) (hlength : ts.length ≤ bound)
    (rest : List Token) : ∃ s, Suffixes en (ts ++ rest) s rest ∧ e.ReadAs s.expr := by
  rcases reads_enclosed.mp hreads with ⟨t, inner, u, rfl, ht, hinner, hu⟩
  simp only [List.length_cons, List.length_append, List.length_nil] at hlength
  rcases @paren_found _ _ _ _ H e depth t u inner rest he hwrapped ht hu hinner (by omega) with
    ⟨e', hfound, hread⟩
  refine ⟨⟨e', .paren⟩, ⟨⟨e', .paren⟩, rest, ?_, .refl⟩, hread⟩
  simp only [List.cons_append, List.append_assoc, List.nil_append]
  exact orElse_found (bind_found hfound)

theorem wrapped_base {e : Expr} (h : e.isRest = false)
    (hparens : (e.inParens || !e.isPrefixed) = true) : e.Wrapped true := by
  unfold Expr.Wrapped
  cases e <;> simp_all [Expr.inParens, Expr.isPrefixed, Expr.isRest, Expr.parenthesized]

/-- A base is reached in front of its suffix, if it is without parentheses. -/
theorem base_reaches (H : en.Rereads style encoding bound) {base : Expr} {depth : Nat}
    {ps : List Piece} {ts : List Token} (hrest : base.isRest = false)
    (hbase : base.WellFormed encoding false)
    (hopen : base.isPrefixed = true → base.inParens = false → ∀ {ts : List Token},
      Reads (base.pieces style depth) ts → ts.length ≤ bound → ∀ rest, ∃ s,
        Suffixes en (ts ++ rest) s rest ∧ base.ReadAs s.expr ∧ s.ending = base.ending)
    (hreads : Reads
      (enclosed (base.inParens || !base.isPrefixed) (base.pieces style depth) ++ ps) ts)
    (hlength : ts.length ≤ bound) (rest : List Token) :
    ∃ back s, Reads ps back ∧ back.length ≤ bound ∧ Suffixes en (ts ++ rest) s (back ++ rest) ∧
      base.ReadAs s.expr := by
  rcases reads_append.mp hreads with ⟨front, back, rfl, hfront, hback⟩
  simp only [List.length_append] at hlength
  have hreached : ∃ s, Suffixes en (front ++ (back ++ rest)) s (back ++ rest) ∧
      base.ReadAs s.expr := by
    cases hparens : base.inParens || !base.isPrefixed with
    | true =>
        rw [hparens] at hfront
        exact suffixes_enclosed H hbase (wrapped_base hrest hparens) hfront (by omega) _
    | false =>
        rw [hparens] at hfront
        simp only [Bool.or_eq_false_iff, Bool.not_eq_false'] at hparens
        rcases hopen hparens.2 hparens.1 hfront (by omega) (back ++ rest) with ⟨s, hs, hread, _⟩
        exact ⟨s, hs, hread⟩
  rcases hreached with ⟨s, hs, hread⟩
  rw [← List.append_assoc] at hs
  exact ⟨back, s, hback, by omega, hs, hread⟩

theorem wellFormed_of_callee {e : Expr} (h : e.WellFormed encoding true)
    (hmethod : ∀ base n, e ≠ .member base .colon n) : e.WellFormed encoding false := by
  cases e with
  | member base indexer n =>
      cases indexer with
      | dot => exact ⟨by simp, h.2⟩
      | colon => exact absurd rfl (hmethod base n)
  | _ => exact h

theorem method_pieces (base : Expr) (n : Name) (arguments : Args) (inParens : Bool)
    (line depth : Nat) :
    (Expr.call (.member base .colon n) arguments inParens line).pieces style depth =
      enclosed (base.inParens || !base.isPrefixed) (base.pieces style depth)
        ++ .token ":" :: .token n.text :: arguments.pieces style depth := by
  rw [Expr.pieces, Expr.pieces]
  simp [enclosed, Expr.inParens, Expr.isPrefixed, Indexer.sign]

theorem suffixes_found (H : en.Rereads style encoding bound) {depth : Nat} : (e : Expr) →
    e.WellFormed encoding false → e.isPrefixed = true → e.inParens = false →
    ∀ {ts : List Token}, Reads (e.pieces style depth) ts → ts.length ≤ bound → ∀ rest, ∃ s,
      Suffixes en (ts ++ rest) s rest ∧ e.ReadAs s.expr ∧ s.ending = e.ending
  | .name n, he, _, _, ts, hreads, _, rest => by
      rw [Expr.pieces, reads_word he.alone] at hreads
      rcases hreads with ⟨t, _, rfl, hkind, htext, hback⟩
      cases hback
      refine ⟨⟨.name n.stripped, .name⟩, ⟨_, rest, ?_, .refl⟩, rfl, rfl⟩
      have hparen : t.is "(" = false := is_eq_false_of_kind (by simp [hkind])
      refine (orElse_absent (bind_absent (bind_absent (sign_absent hparen)))).trans ?_
      exact bind_found (name_found hkind htext rest)
  | .member base indexer n, he, _, _, ts, hreads, hlength, rest => by
      rcases he with ⟨hindexer, hrest, hbase, hn⟩
      have hdot : indexer = .dot := by
        cases indexer with
        | dot => rfl
        | colon => exact absurd (hindexer rfl) (by simp)
      subst hdot
      rw [Expr.pieces] at hreads
      rcases base_reaches H hrest hbase (suffixes_found H base hbase) hreads hlength rest with
        ⟨tsMember, s, htsMember, _, hs, hread⟩
      rcases @member_step en n tsMember hn.alone htsMember s rest with ⟨hstep, hne⟩
      refine ⟨_, hs.step hstep hne, ?_, rfl⟩
      simp only [Expr.ReadAs, Expr.stripped] at hread ⊢
      rw [hread, stripped_stripped]
  | .index base key, he, _, _, ts, hreads, hlength, rest => by
      rcases he with ⟨hrest, hbase, hkey⟩
      rw [Expr.pieces, List.append_assoc] at hreads
      rcases base_reaches H hrest hbase (suffixes_found H base hbase) hreads hlength rest with
        ⟨tsIndex, s, htsIndex, hshort, hs, hread⟩
      rcases index_step H hkey htsIndex hshort s rest with ⟨key', hstep, hne, hkeyRead⟩
      exact ⟨_, hs.step hstep hne, congrArg₂ Expr.index hread hkeyRead, rfl⟩
  | .call base arguments inParens line, he, _, hparens, ts, hreads, hlength, rest => by
      rcases he with ⟨hrest, hcallee, harguments⟩
      have hparens : inParens = false := hparens
      by_cases hmethod : ∃ inner n, base = .member inner .colon n
      · rcases hmethod with ⟨inner, n, hmember⟩
        rw [hmember] at hcallee hreads ⊢
        rcases hcallee with ⟨_, hrest, hinner, hn⟩
        rw [method_pieces] at hreads
        rcases base_reaches H hrest hinner (suffixes_found H inner hinner) hreads hlength rest with
          ⟨tsCall, s, htsCall, hshort, hs, hread⟩
        rcases method_step H hn.alone harguments htsCall hshort s rest with
          ⟨arguments', line', hstep, hne, hargumentsRead⟩
        refine ⟨_, hs.step hstep hne, ?_, rfl⟩
        simp only [Expr.ReadAs, Expr.stripped] at hread ⊢
        rw [hread, hargumentsRead, stripped_stripped, hparens]
      · have hbase := wellFormed_of_callee hcallee fun inner n h => hmethod ⟨inner, n, h⟩
        rw [Expr.pieces] at hreads
        rcases base_reaches H hrest hbase (suffixes_found H base hbase) hreads hlength rest with
          ⟨tsCall, s, htsCall, hshort, hs, hread⟩
        rcases call_step H harguments htsCall hshort s rest with
          ⟨arguments', line', hstep, hne, hargumentsRead⟩
        refine ⟨_, hs.step hstep hne, ?_, rfl⟩
        simp only [Expr.ReadAs, Expr.stripped] at hread ⊢
        rw [hread, hargumentsRead, hparens]
  | .string _, _, hprefixed, _, _, _, _, _ | .number .., _, hprefixed, _, _, _, _, _
  | .boolean _, _, hprefixed, _, _, _, _, _ | .nil, _, hprefixed, _, _, _, _, _
  | .vararg .., _, hprefixed, _, _, _, _, _ | .function .., _, hprefixed, _, _, _, _, _
  | .table _, _, hprefixed, _, _, _, _, _ | .binary .., _, hprefixed, _, _, _, _, _
  | .unary .., _, hprefixed, _, _, _, _, _ => by
      cases hprefixed
  termination_by e => sizeOf e
  decreasing_by
    · decreasing_tactic
    · decreasing_tactic
    · have hsize := congrArg sizeOf hmember
      simp only [Expr.member.sizeOf_spec, Expr.call.sizeOf_spec] at hsize ⊢
      omega
    · decreasing_tactic

/-!
## Values
-/

theorem value_eq_suffixed {t : Token} {more : List Token}
    (hstart : t.kind = .name ∨ t.is "(" = true) :
    value en (t :: more) = (do let s ← suffixed en; return s.expr) (t :: more) := by
  have hother : ∀ text ∈ ["nil", "false", "true", "...", "function", "\x7b"],
      sign text (t :: more) = .absent := by
    intro text htext
    apply sign_absent
    rcases hstart with hname | hparen
    · exact is_eq_false_of_kind (by simp [hname])
    · apply is_eq_false hparen
      rintro rfl
      exact absurd htext (by decide)
  have hkind : t.kind ≠ .number ∧ t.kind ≠ .string := by
    rcases hstart with hname | hparen
    · simp [hname]
    · simp [(is_iff.mp hparen).1]
  refine (orElse_absent (bind_absent (hother "nil" (by simp)))).trans ?_
  refine (orElse_absent (bind_absent (hother "false" (by simp)))).trans ?_
  refine (orElse_absent (bind_absent (hother "true" (by simp)))).trans ?_
  refine (orElse_absent (bind_absent (kind_absent hkind.1))).trans ?_
  refine (orElse_absent (bind_absent (bind_absent (kind_absent hkind.2)))).trans ?_
  refine (orElse_absent (bind_absent (hother "..." (by simp)))).trans ?_
  refine (orElse_absent (bind_absent (hother "function" (by simp)))).trans ?_
  exact orElse_absent (bind_absent (bind_absent (hother "\x7b" (by simp))))

theorem starts_suffixed {t : Token} {more : List Token}
    (h : suffixed en (t :: more) ≠ .absent) : t.kind = .name ∨ t.is "(" = true := by
  by_cases hname : t.kind = .name
  · exact Or.inl hname
  · cases hparen : t.is "(" with
    | true => exact Or.inr rfl
    | false => exact absurd (suffixed_absent hname hparen) h

theorem value_of_suffixed {s : Suffixed} {ts rest : List Token}
    (h : suffixed en ts = .found s rest) : value en ts = .found s.expr rest := by
  cases ts with
  | nil => cases h
  | cons t more =>
      have hne : suffixed en (t :: more) ≠ .absent := by simp [h]
      exact (value_eq_suffixed (starts_suffixed hne)).trans (bind_found h)

section Keyword

variable {t : Token} {rest : List Token}

theorem value_nil (h : t.is "nil" = true) : value en (t :: rest) = .found .nil rest := by
  refine orElse_found ?_
  exact bind_found (sign_found h rest)

theorem value_false (h : t.is "false" = true) :
    value en (t :: rest) = .found (.boolean false) rest := by
  refine (orElse_absent (bind_absent (sign_absent (is_eq_false h (by decide))))).trans ?_
  refine orElse_found ?_
  exact bind_found (sign_found h rest)

theorem value_true (h : t.is "true" = true) :
    value en (t :: rest) = .found (.boolean true) rest := by
  refine (orElse_absent (bind_absent (sign_absent (is_eq_false h (by decide))))).trans ?_
  refine (orElse_absent (bind_absent (sign_absent (is_eq_false h (by decide))))).trans ?_
  refine orElse_found ?_
  exact bind_found (sign_found h rest)

theorem value_number (h : t.kind = .number) :
    value en (t :: rest) = .found (.number (.written t.text) t.line) rest := by
  have hno : ∀ text, sign text (t :: rest) = .absent := fun text =>
    sign_absent (is_eq_false_of_kind (by simp [h]))
  refine (orElse_absent (bind_absent (hno _))).trans ?_
  refine (orElse_absent (bind_absent (hno _))).trans ?_
  refine (orElse_absent (bind_absent (hno _))).trans ?_
  refine orElse_found ?_
  exact bind_found (kind_found h rest)

theorem value_string (h : t.kind = .string) :
    value en (t :: rest) = .found (.string ⟨t.text, t.line⟩) rest := by
  have hno : ∀ text, sign text (t :: rest) = .absent := fun text =>
    sign_absent (is_eq_false_of_kind (by simp [h]))
  refine (orElse_absent (bind_absent (hno _))).trans ?_
  refine (orElse_absent (bind_absent (hno _))).trans ?_
  refine (orElse_absent (bind_absent (hno _))).trans ?_
  refine (orElse_absent (bind_absent (kind_absent (by simp [h])))).trans ?_
  refine orElse_found ?_
  exact bind_found (bind_found (kind_found h rest))

theorem value_reserved {text : String} {outcome : Outcome Expr} (h : t.is text = true)
    (hnil : text ≠ "nil") (hno : text ≠ "false") (hyes : text ≠ "true")
    (hlater : (Lua.rest
      <|> (do
        let _ ← sign "function"
        let (parameters, body) ← functionBody en
        return Expr.function parameters body)
      <|> (do let (fields, _) ← tableFields en; return Expr.table fields)
      <|> (do let s ← suffixed en; return s.expr)) (t :: rest) = outcome) :
    value en (t :: rest) = outcome := by
  have hkind := (is_iff.mp h).1
  refine (orElse_absent (bind_absent (sign_absent (is_eq_false h hnil)))).trans ?_
  refine (orElse_absent (bind_absent (sign_absent (is_eq_false h hno)))).trans ?_
  refine (orElse_absent (bind_absent (sign_absent (is_eq_false h hyes)))).trans ?_
  refine (orElse_absent (bind_absent (kind_absent (by simp [hkind])))).trans ?_
  refine (orElse_absent (bind_absent (bind_absent (kind_absent (by simp [hkind]))))).trans ?_
  exact hlater

end Keyword

theorem functionValue_found (H : en.Rereads style encoding bound) {parameters : List Expr}
    {body : List Stat} {depth : Nat} {ts : List Token}
    (he : (Expr.function parameters body).WellFormed encoding false)
    (hreads : Reads ((Expr.function parameters body).pieces style depth) ts)
    (hlength : ts.length ≤ bound) (rest : List Token) :
    ∃ e', value en (ts ++ rest) = .found e' rest ∧ (Expr.function parameters body).ReadAs e' := by
  rw [Expr.pieces] at hreads
  simp only [List.cons_append, reads_sign (Or.inl (by decide : "function" ∈ keywords))] at hreads
  rcases hreads with ⟨t, tsBody, rfl, ht, hbody⟩
  simp only [List.length_cons] at hlength
  rcases functionBody_found H he.1 he.2 hbody (by omega) rest with
    ⟨parameters', body', hfound, hparametersRead, hbodyRead⟩
  refine ⟨.function parameters' body', ?_, congrArg₂ Expr.function hparametersRead hbodyRead⟩
  rw [List.cons_append]
  refine value_reserved ht (by decide) (by decide) (by decide) ?_
  refine (orElse_absent (bind_absent (sign_absent (is_eq_false ht (by decide))))).trans ?_
  refine orElse_found ?_
  refine (bind_found (sign_found ht _)).trans ?_
  exact bind_found hfound

theorem tableValue_found (H : en.Rereads style encoding bound) {fields : List Field} {depth : Nat}
    {ts : List Token} (he : (Expr.table fields).WellFormed encoding false)
    (hreads : Reads ((Expr.table fields).pieces style depth) ts) (hlength : ts.length ≤ bound)
    (rest : List Token) :
    ∃ e', value en (ts ++ rest) = .found e' rest ∧ (Expr.table fields).ReadAs e' := by
  rw [Expr.pieces] at hreads
  rcases tableFields_found H he hreads hlength rest with ⟨fs', line, hfound, hread⟩
  rcases reads_table hreads with ⟨t, inner, u, rfl, ht, _, _⟩
  refine ⟨.table fs', ?_, congrArg Expr.table hread⟩
  rw [List.cons_append] at hfound ⊢
  refine value_reserved ht (by decide) (by decide) (by decide) ?_
  refine (orElse_absent (bind_absent (sign_absent (is_eq_false ht (by decide))))).trans ?_
  refine (orElse_absent (bind_absent (sign_absent (is_eq_false ht (by decide))))).trans ?_
  refine orElse_found ?_
  exact bind_found hfound

theorem value_found (H : en.Rereads style encoding bound) {e : Expr} {depth : Nat} {ts : List Token}
    (he : e.WellFormed encoding false) (hlevel : e.level = beyond)
    (hunary : ∀ op a, e ≠ .unary op a)
    (hparens : e.inParens = false) (hreads : Reads (e.pieces style depth) ts)
    (hlength : ts.length ≤ bound) {rest : List Token}
    (hrest : ∀ t ∈ rest.head?, t.startsSuffix = false) :
    ∃ e', value en (ts ++ rest) = .found e' rest ∧ e.ReadAs e' := by
  have hprefixed : e.isPrefixed = true →
      ∃ e', value en (ts ++ rest) = .found e' rest ∧ e.ReadAs e' := by
    intro hprefixed
    rcases suffixes_found H e he hprefixed hparens hreads hlength rest with ⟨s, hs, hread, _⟩
    exact ⟨s.expr, value_of_suffixed (suffixed_of_suffixes hs hrest), hread⟩
  cases e with
  | name n => exact hprefixed rfl
  | member base indexer n => exact hprefixed rfl
  | index base key => exact hprefixed rfl
  | call base arguments inParens line => exact hprefixed rfl
  | binary op left right =>
      have hlt := Nat.lt_of_le_of_lt (precedence_le_right op) (precedence_lt_beyond op)
      exact absurd hlevel (Nat.ne_of_lt hlt)
  | unary op operand => exact absurd rfl (hunary op operand)
  | string literal =>
      rw [Expr.pieces, reads_word he.alone] at hreads
      rcases hreads with ⟨t, _, rfl, hkind, htext, hback⟩
      cases hback
      refine ⟨_, value_string hkind, ?_⟩
      rw [htext]
      rfl
  | number numeral line =>
      cases numeral with
      | value x => exact he.elim
      | written raw =>
          rw [Expr.pieces] at hreads
          rcases reads_numeral he.alone hreads with ⟨t, _, rfl, hkind, htext, hback⟩
          cases hback
          refine ⟨_, value_number hkind, ?_⟩
          rw [htext]
          rfl
  | boolean b =>
      rw [Expr.pieces] at hreads
      cases b with
      | false =>
          rcases (reads_sign (Or.inl (by decide))).mp hreads with ⟨t, _, rfl, ht, hback⟩
          cases hback
          exact ⟨_, value_false ht, rfl⟩
      | true =>
          rcases (reads_sign (Or.inl (by decide))).mp hreads with ⟨t, _, rfl, ht, hback⟩
          cases hback
          exact ⟨_, value_true ht, rfl⟩
  | nil =>
      rw [Expr.pieces, reads_sign (Or.inl (by decide))] at hreads
      rcases hreads with ⟨t, _, rfl, ht, hback⟩
      cases hback
      exact ⟨_, value_nil ht, rfl⟩
  | vararg inParens line =>
      rw [Expr.pieces, reads_sign (Or.inr (by decide))] at hreads
      rcases hreads with ⟨t, _, rfl, ht, hback⟩
      cases hback
      have hparens : inParens = false := hparens
      subst hparens
      refine ⟨.vararg false t.line, ?_, rfl⟩
      refine value_reserved ht (by decide) (by decide) (by decide) ?_
      exact orElse_found (rest_found ht rest)
  | function parameters body => exact functionValue_found H he hreads hlength rest
  | table fields => exact tableValue_found H he hreads hlength rest

end Values

end Lua
end LuaBundle
