import LuaBundle.Proofs.Grammar.Expressions

/-!
# Reading printed statements

The tokens of a printed statement are read as the statement again in front of whatever may
follow it in a block: another statement, a semicolon, or the end of the block.
-/

namespace LuaBundle
namespace Lua

open Text
open LuaBundle.Lua.Parser

/-- Tokens in front of which a statement ends. -/
def Ends (rest : List Token) : Prop :=
  ∃ t more, rest = t :: more ∧ t.isStop = true ∧ t.isOneOf [",", "="] = false

theorem Ends.stops {rest : List Token} (h : Ends rest) : Stops rest := by
  rcases h with ⟨t, more, rfl, hstop, _⟩
  exact ⟨t, more, rfl, hstop⟩

theorem Ends.sign_absent {rest : List Token} (h : Ends rest) {text : String}
    (htext : text ∈ [",", "=", ".", ":", "<"]) : sign text rest = .absent := by
  rcases h with ⟨t, more, rfl, hstop, hsigns⟩
  apply Lua.sign_absent
  cases his : t.is text with
  | false => rfl
  | true =>
      rw [isStop_of_is his] at hstop
      rw [isOneOf_of_is his] at hsigns
      simp only [List.mem_cons, List.not_mem_nil, or_false] at htext
      rcases htext with rfl | rfl | rfl | rfl | rfl <;> revert hstop hsigns <;> decide

def NoSuffix (rest : List Token) : Prop :=
  ∀ t ∈ rest.head?, t.startsSuffix = false

def Stat.ReadAs (s s' : Stat) : Prop :=
  s'.stripped .binary = s.stripped regrouped

section Statements

variable {style : Style} {encoding : Encoding} {en : Entry} {bound : Nat}

/-!
## Calls and assignments
-/

/-- An expression that is read with suffixes, in front of a token that starts none. -/
theorem suffixed_found (H : en.Rereads style encoding bound) {e : Expr} {depth : Nat}
    {ts rest : List Token} (he : e.WellFormed encoding false) (hprefixed : e.isPrefixed = true)
    (hparens : e.inParens = false) (hreads : Reads (e.pieces style depth) ts)
    (hlength : ts.length ≤ bound) (hrest : NoSuffix rest) :
    ∃ s, suffixed en (ts ++ rest) = .found s rest ∧ e.ReadAs s.expr ∧ s.ending = e.ending := by
  rcases suffixes_found H e he hprefixed hparens hreads hlength rest with ⟨s, hs, hread, hending⟩
  exact ⟨s, suffixed_of_suffixes hs hrest, hread, hending⟩

theorem call_found (H : en.Rereads style encoding bound) {e : Expr} {depth : Nat}
    {ts rest : List Token} (he : (Stat.call e).WellFormed encoding)
    (hreads : Reads ((Stat.call e).pieces style depth) ts) (hlength : ts.length ≤ bound)
    (hrest : Ends rest) :
    ∃ s', statement en (ts ++ rest) = .found s' rest ∧ (Stat.call e).ReadAs s' := by
  rcases he with ⟨hcall, hparens, he⟩
  rw [Stat.pieces, hparens] at hreads
  have hprefixed : e.isPrefixed = true := by cases e <;> simp_all [Expr.isCall, Expr.isPrefixed]
  rcases suffixed_found H he hprefixed hparens hreads hlength hrest.stops.suffix with
    ⟨s, hfound, hread, hending⟩
  have hcall : s.ending = .call := by
    rw [hending]
    cases e <;> simp_all [Expr.isCall, Expr.ending]
  refine ⟨.call s.expr, orElse_found ((bind_found hfound).trans ?_), congrArg Stat.call hread⟩
  rw [hcall]
  rfl

theorem isTarget_facts {e : Expr} (h : e.isTarget = true) :
    e.isPrefixed = true ∧ e.inParens = false ∧ (e.ending = .name ∨ e.ending = .index) := by
  cases e <;> simp_all [Expr.isTarget, Expr.isPrefixed, Expr.inParens, Expr.ending]

theorem target_found (H : en.Rereads style encoding bound) {e : Expr} {depth : Nat}
    {ts rest : List Token} (he : e.WellFormed encoding false) (htarget : e.isTarget = true)
    (hreads : Reads (enclosed e.inParens (e.pieces style depth)) ts) (hlength : ts.length ≤ bound)
    (hrest : ∀ t ∈ rest.head?, t.startsSuffix = false) :
    ∃ e', target en (ts ++ rest) = .found e' rest ∧ e.ReadAs e' := by
  rcases isTarget_facts htarget with ⟨hprefixed, hparens, hends⟩
  rw [hparens] at hreads
  rcases suffixed_found H he hprefixed hparens hreads hlength hrest with
    ⟨s, hfound, hread, hending⟩
  refine ⟨s.expr, (bind_found hfound).trans ?_, hread⟩
  rw [hending]
  rcases hends with hend | hend <;> rw [hend] <;> rfl

theorem startsSuffix_of_separator {t : Token} {text : String} (h : t.is text = true)
    (htext : text = "," ∨ text = "=") : t.startsSuffix = false := by
  rw [startsSuffix_of_is h]
  rcases htext with rfl | rfl <;> decide

theorem assign_found (H : en.Rereads style encoding bound) {targets values : List Expr}
    {depth : Nat} {ts rest : List Token} (hs : (Stat.assign targets values).WellFormed encoding)
    (hreads : Reads ((Stat.assign targets values).pieces style depth) ts)
    (hlength : ts.length ≤ bound) (hrest : Ends rest) :
    ∃ s', statement en (ts ++ rest) = .found s' rest ∧ (Stat.assign targets values).ReadAs s' := by
  rcases hs with ⟨htargets, hvalues, hall, htargetsWf, hvaluesWf⟩
  rw [Stat.pieces, List.append_assoc] at hreads
  rcases reads_append.mp hreads with ⟨tsTargets, more, rfl, htsTargets, hmore⟩
  simp only [spacedSign, List.cons_append, List.nil_append, reads_gap,
    reads_sign (Or.inr (by decide : "=" ∈ signs))] at hmore
  rcases hmore with ⟨equals, tsValues, rfl, hequals, htsValues⟩
  simp only [List.length_append, List.length_cons] at hlength
  cases targets with
  | nil => exact absurd rfl htargets
  | cons e es =>
      rw [exprRows, commaSeparated_cons, exprRows_eq_map] at htsTargets
      rcases reads_append.mp htsTargets with ⟨tsFirst, tsMore, rfl, htsFirst, htsMore⟩
      simp only [List.length_append] at hlength
      simp only [List.all_cons, Bool.and_eq_true, List.all_eq_true] at hall
      rcases htargetsWf with ⟨he, hes⟩
      have hsuffix : ∀ (t : Token) (more : List Token), t.is "," = true → NoSuffix (t :: more) := by
        intro t more ht u hu
        cases hu
        exact startsSuffix_of_separator ht (Or.inl rfl)
      have hend : NoSuffix (equals :: (tsValues ++ rest)) := by
        intro u hu
        cases hu
        exact startsSuffix_of_separator hequals (Or.inr rfl)
      have hitem : ∀ item ∈ es, ∀ ts more,
          Reads (enclosed item.inParens (item.pieces style depth)) ts → ts.length < bound →
          NoSuffix more → ∃ a, target en (ts ++ more) = .found a more ∧ item.ReadAs a := by
        intro item hitem ts more hts hlength hmore
        exact target_found H (exprsWellFormed_iff.mp hes item hitem) (hall.2 item hitem) hts
          (Nat.le_of_lt hlength) hmore
      have hfirstRest := follows_commas _ hsuffix hend htsMore
      rcases isTarget_facts hall.1 with ⟨hprefixed, hparens, hends⟩
      rw [hparens] at htsFirst
      rcases suffixed_found H he hprefixed hparens htsFirst (by omega) hfirstRest with
        ⟨s, hfound, hread, hending⟩
      have hno : sign "," (equals :: (tsValues ++ rest)) = .absent :=
        Lua.sign_absent (is_eq_false hequals (by decide))
      rcases manys_commas _ hsuffix hitem hend (bind_absent hno) htsMore (by omega) with
        ⟨es', hmanys, hgoods⟩
      rcases values_found H hvaluesWf hvalues htsValues (by omega) hrest.stops
        (hrest.sign_absent (by simp)) with ⟨values', hvaluesFound, hvaluesRead⟩
      refine ⟨.assign (s.expr :: es') values', orElse_found ?_, ?_⟩
      · simp only [List.append_assoc, List.cons_append]
        refine (bind_found hfound).trans ?_
        have htail : (do
            let more ← many (do let _ ← sign ","; target en)
            let _ ← sign "="
            let values ← Parser.need (separated (en.expr 1))
            return Stat.assign (s.expr :: more) values)
            (tsMore ++ equals :: (tsValues ++ rest)) =
              .found (.assign (s.expr :: es') values') rest := by
          refine (bind_found (many_of_manys hmanys)).trans ?_
          refine (bind_found (sign_found hequals _)).trans ?_
          exact bind_found (need_found hvaluesFound)
        rw [hending]
        rcases hends with hend | hend <;> rw [hend] <;> exact htail
      · exact congrArg₂ Stat.assign
          (congrArg₂ List.cons hread (strippedExprs_of_readAs hgoods)) hvaluesRead

/-!
## Statements that start with a keyword or a sign
-/

theorem passed {t : Token} {rest : List Token} {text other : String} {f : Token → Parser α}
    (h : t.is text = true) (hne : text ≠ other) (p : Parser α) :
    ((sign other >>= f) <|> p) (t :: rest) = p (t :: rest) :=
  orElse_absent (bind_absent (sign_absent (is_eq_false h hne)))

/-- The statements that start with a keyword or a sign, in the order in which they are tried. -/
theorem statement_reserved {t : Token} {rest : List Token} {text : String} (h : t.is text = true)
    (hparen : text ≠ "(") :
    statement en (t :: rest) =
      (doBlock en <|> whileLoop en <|> repeatLoop en <|> choice en <|> forRange en
        <|> forEach en <|> functionDeclaration en <|> localFunction en <|> locals en <|> gotoLabel
        <|> label) (t :: rest) := by
  have hname : t.kind ≠ .name := by
    rw [(is_iff.mp h).1]
    decide
  exact orElse_absent (bind_absent (suffixed_absent hname (is_eq_false h hparen)))

theorem statement_later {t : Token} {rest : List Token} {text : String} (h : t.is text = true)
    (hne : text ∉ ["(", "do", "while", "repeat", "if"]) :
    statement en (t :: rest) =
      (forRange en <|> forEach en <|> functionDeclaration en <|> localFunction en <|> locals en
        <|> gotoLabel <|> label) (t :: rest) := by
  simp only [List.mem_cons, List.not_mem_nil, or_false, not_or] at hne
  rcases hne with ⟨hparen, hdo, hwhile, hrepeat, hif⟩
  refine (statement_reserved h hparen).trans ?_
  refine (passed h hdo _).trans ?_
  refine (passed h hwhile _).trans ?_
  refine (passed h hrepeat _).trans ?_
  exact passed h hif _

theorem statement_last {t : Token} {rest : List Token} {text : String} (h : t.is text = true)
    (hne : text ∉ ["(", "do", "while", "repeat", "if", "for", "function"]) :
    statement en (t :: rest) =
      (localFunction en <|> locals en <|> gotoLabel <|> label) (t :: rest) := by
  have hlater : text ∉ ["(", "do", "while", "repeat", "if"] :=
    fun hmem => hne (List.mem_append_left ["for", "function"] hmem)
  have hfor : text ≠ "for" := fun heq => hne (by simp [heq])
  have hfunction : text ≠ "function" := fun heq => hne (by simp [heq])
  refine (statement_later h hlater).trans ?_
  refine (passed h hfor _).trans ?_
  refine (passed h hfor _).trans ?_
  exact passed h hfunction _

theorem doBlock_found (H : en.Rereads style encoding bound) {body : List Stat} {depth : Nat}
    {ts rest : List Token} (hbody : blockWellFormed encoding body)
    (hreads : Reads ((Stat.block body).pieces style depth) ts) (hlength : ts.length ≤ bound) :
    ∃ s', statement en (ts ++ rest) = .found s' rest ∧ (Stat.block body).ReadAs s' := by
  rw [Stat.pieces, reads_sign (Or.inl (by decide))] at hreads
  rcases hreads with ⟨t, more, rfl, ht, hmore⟩
  rcases reads_closedBody (by decide) hmore with ⟨inner, last, rfl, hinner, hlast⟩
  simp only [List.length_cons, List.length_append, List.length_nil] at hlength
  rcases H.block hbody hinner (by omega) (closes_of_is rest hlast (by decide)) with
    ⟨body', hfound, hread⟩
  refine ⟨.block body', ?_, congrArg Stat.block hread⟩
  simp only [List.cons_append, List.append_assoc, List.nil_append]
  refine (statement_reserved ht (by decide)).trans (orElse_found ?_)
  refine (bind_found (sign_found ht _)).trans ?_
  refine (bind_found hfound).trans ?_
  exact bind_found (need_found (sign_found hlast rest))

theorem whileLoop_found (H : en.Rereads style encoding bound) {condition : Expr} {body : List Stat}
    {depth : Nat} {ts rest : List Token} (hs : (Stat.whileLoop condition body).WellFormed encoding)
    (hreads : Reads ((Stat.whileLoop condition body).pieces style depth) ts)
    (hlength : ts.length ≤ bound) :
    ∃ s', statement en (ts ++ rest) = .found s' rest ∧
      (Stat.whileLoop condition body).ReadAs s' := by
  simp (disch := decide) only [Stat.pieces, List.cons_append, reads_sign, reads_gap,
    reads_append] at hreads
  rcases hreads with ⟨t, _, rfl, ht, tsCondition, _, rfl, hcondition, u, _, rfl, hu, hmore⟩
  rcases reads_closedBody (by decide) hmore with ⟨inner, last, rfl, hinner, hlast⟩
  simp only [List.length_cons, List.length_append, List.length_nil] at hlength
  rcases H.free hs.1 hcondition (by omega)
    (stops_of_is (inner ++ last :: rest) hu (by decide)) with
    ⟨condition', hconditionFound, hconditionRead⟩
  rcases H.block hs.2 hinner (by omega) (closes_of_is rest hlast (by decide)) with
    ⟨body', hfound, hread⟩
  refine ⟨.whileLoop condition' body', ?_, congrArg₂ Stat.whileLoop hconditionRead hread⟩
  simp only [List.cons_append, List.append_assoc, List.nil_append]
  refine (statement_reserved ht (by decide)).trans ?_
  refine (passed ht (by decide) _).trans ?_
  refine orElse_found ?_
  refine (bind_found (sign_found ht _)).trans ?_
  refine (bind_found (need_found hconditionFound)).trans ?_
  refine (bind_found (need_found (sign_found hu _))).trans ?_
  refine (bind_found hfound).trans ?_
  exact bind_found (need_found (sign_found hlast rest))

theorem repeatLoop_found (H : en.Rereads style encoding bound) {condition : Expr}
    {body : List Stat} {depth : Nat} {ts rest : List Token}
    (hs : (Stat.repeatLoop body condition).WellFormed encoding)
    (hreads : Reads ((Stat.repeatLoop body condition).pieces style depth) ts)
    (hlength : ts.length ≤ bound) (hrest : Ends rest) :
    ∃ s', statement en (ts ++ rest) = .found s' rest ∧
      (Stat.repeatLoop body condition).ReadAs s' := by
  simp (disch := decide) only [Stat.pieces, List.cons_append, reads_sign, reads_gap,
    reads_append] at hreads
  rcases hreads with ⟨t, _, rfl, ht, tsBody, tsCondition, rfl, hbody, hcondition⟩
  rcases reads_closedBody (by decide) hbody with ⟨inner, last, rfl, hinner, hlast⟩
  simp only [List.length_cons, List.length_append, List.length_nil] at hlength
  rcases H.block hs.1 hinner (by omega)
    (closes_of_is (tsCondition ++ rest) hlast (by decide)) with ⟨body', hfound, hread⟩
  rcases H.free hs.2 hcondition (by omega) hrest.stops with
    ⟨condition', hconditionFound, hconditionRead⟩
  refine ⟨.repeatLoop body' condition', ?_, congrArg₂ Stat.repeatLoop hread hconditionRead⟩
  simp only [List.cons_append, List.append_assoc, List.nil_append]
  refine (statement_reserved ht (by decide)).trans ?_
  refine (passed ht (by decide) _).trans ?_
  refine (passed ht (by decide) _).trans ?_
  refine orElse_found ?_
  refine (bind_found (sign_found ht _)).trans ?_
  refine (bind_found hfound).trans ?_
  refine (bind_found (need_found (sign_found hlast _))).trans ?_
  exact bind_found (need_found hconditionFound)

/-!
## Choices
-/

theorem clauseBody_found (H : en.Rereads style encoding bound) {condition : Expr}
    {body : List Stat} {depth : Nat} {ts rest : List Token}
    (hcondition : condition.WellFormed encoding false) (hbody : blockWellFormed encoding body)
    (hreads : Reads (enclosed condition.inParens (condition.pieces style depth)
      ++ .gap :: .token "then" :: blockPieces style (depth + 1) false body) ts)
    (hlength : ts.length < bound) (hrest : Closes rest) :
    ∃ tsCondition u inner condition' body', ts = tsCondition ++ u :: inner ∧ u.is "then" = true ∧
      en.expr 1 (tsCondition ++ u :: (inner ++ rest)) = .found condition' (u :: (inner ++ rest)) ∧
      en.block (inner ++ rest) = .found body' rest ∧ condition.ReadAs condition' ∧
      strippedBlock .binary body' = strippedBlock regrouped body := by
  simp (disch := decide) only [reads_sign, reads_gap, reads_append] at hreads
  rcases hreads with ⟨tsCondition, _, rfl, htsCondition, u, inner, rfl, hu, hinner⟩
  simp only [List.length_cons, List.length_append] at hlength
  rcases H.free hcondition htsCondition (by omega)
    (stops_of_is (inner ++ rest) hu (by decide)) with
    ⟨condition', hconditionFound, hconditionRead⟩
  rcases H.block hbody hinner (by omega) hrest with ⟨body', hfound, hread⟩
  exact ⟨tsCondition, u, inner, condition', body', rfl, hu, hconditionFound, hfound,
    hconditionRead, hread⟩

theorem furtherClauses_found (H : en.Rereads style encoding bound) {depth : Nat} {t : Token}
    (rest : List Token) (ht : t.is "end" = true) {clauses : List Clause}
    (hshape : furtherClauses clauses = true) (hwf : clausesWellFormed encoding clauses)
    {ts : List Token} (hreads : Reads (clausePieces style depth clauses) ts)
    (hlength : ts.length ≤ bound) :
    Closes (ts ++ t :: rest) ∧ ∃ more mid last, Manys (nextClause en) (ts ++ t :: rest) more mid ∧
      LuaBundle.Lua.Parser.optional (do let _ ← sign "else"; en.block) mid =
        .found last (t :: rest) ∧
      strippedClauses .binary (more ++ (last.map Clause.otherwise).toList) =
        strippedClauses regrouped clauses := by
  have hnone : ∀ {u : Token} {text : String} (more : List Token), u.is text = true →
      text ≠ "elseif" → nextClause en (u :: more) = .absent := fun more hu hne =>
    bind_absent (sign_absent (is_eq_false hu hne))
  induction clauses generalizing ts with
  | nil =>
      cases hreads
      refine ⟨closes_of_is _ ht (by decide), [], t :: rest, none, .stop (hnone rest ht (by decide)),
        ?_, rfl⟩
      exact optional_absent (bind_absent (sign_absent (is_eq_false ht (by decide))))
  | cons c more ih =>
      cases c with
      | first condition body => cases hshape
      | otherwise body =>
          cases more with
          | cons next more => cases hshape
          | nil =>
              simp (disch := decide) only [clausePieces, Clause.pieces, List.append_nil,
                reads_newline, reads_sign] at hreads
              rcases hreads with ⟨u, inner, rfl, hu, hinner⟩
              simp only [List.length_cons] at hlength
              have hcloses : Closes (t :: rest) := closes_of_is _ ht (by decide)
              rcases H.block hwf.1 hinner (by omega) hcloses with ⟨body', hfound, hread⟩
              refine ⟨closes_of_is _ hu (by decide), [], _, some body',
                .stop (hnone _ hu (by decide)), ?_, ?_⟩
              · exact optional_found ((bind_found (sign_found hu _)).trans hfound)
              · exact congrArg₂ List.cons (congrArg Clause.otherwise hread) rfl
      | next condition body =>
          simp only [clausePieces, Clause.pieces, List.cons_append, reads_newline,
            reads_sign (Or.inl (by decide : "elseif" ∈ keywords)), reads_gap] at hreads
          rcases hreads with ⟨u, tsMore, rfl, hu, hmore⟩
          rcases reads_append.mp hmore with ⟨front, back, rfl, hfront, hback⟩
          simp only [List.length_cons, List.length_append] at hlength
          rcases ih hshape hwf.2 hback (by omega) with
            ⟨hcloses, as, mid, last, hmanys, hlast, hread⟩
          rcases clauseBody_found H hwf.1.1 hwf.1.2 hfront (by omega) hcloses with
            ⟨tsCondition, v, inner, condition', body', rfl, hv, hcondition, hbody, hconditionRead,
              hbodyRead⟩
          refine ⟨closes_of_is _ hu (by decide), .next condition' body' :: as, mid, last, ?_, hlast,
            congrArg₂ List.cons (congrArg₂ Clause.next hconditionRead hbodyRead) hread⟩
          simp only [List.cons_append, List.append_assoc]
          refine .more ?_ ?_ hmanys
          · have hthen : Parser.needOn u.line (sign "then")
                (v :: (inner ++ (back ++ t :: rest))) =
                .found v (inner ++ (back ++ t :: rest)) := by
              simp [Parser.needOn, sign_found hv]
            have hexpr : Parser.needOn u.line (en.expr 1)
                (tsCondition ++ v :: (inner ++ (back ++ t :: rest))) =
                .found condition' (v :: (inner ++ (back ++ t :: rest))) := by
              simp [Parser.needOn, hcondition]
            refine (bind_found (sign_found hu _)).trans ?_
            refine (bind_found hexpr).trans ?_
            refine (bind_found hthen).trans ?_
            exact bind_found hbody
          · simp only [List.length_cons, List.length_append]
            omega

theorem choice_found (H : en.Rereads style encoding bound) {clauses : List Clause} {depth : Nat}
    {ts rest : List Token} (hs : (Stat.choice clauses).WellFormed encoding)
    (hreads : Reads ((Stat.choice clauses).pieces style depth) ts) (hlength : ts.length ≤ bound) :
    ∃ s', statement en (ts ++ rest) = .found s' rest ∧ (Stat.choice clauses).ReadAs s' := by
  rcases hs with ⟨hshape, hwf⟩
  cases clauses with
  | nil => cases hshape
  | cons c more =>
      cases c with
      | next condition body => cases hshape
      | otherwise body => cases hshape
      | first condition body =>
          simp only [Stat.pieces, clausePieces, Clause.pieces, List.cons_append, List.append_assoc,
            reads_sign (Or.inl (by decide : "if" ∈ keywords)), reads_gap] at hreads
          rcases hreads with ⟨t, tsMore, rfl, ht, hmore⟩
          simp only [← List.append_assoc, ← List.cons_append] at hmore
          rcases reads_append.mp hmore with ⟨front, back, rfl, hfront, hback⟩
          rw [reads_newline, reads_sign (Or.inl (by decide))] at hback
          rcases hback with ⟨last, _, rfl, hlast, hnil⟩
          cases hnil
          rcases reads_append.mp hfront with ⟨front, back, rfl, hfront, hback⟩
          simp only [List.length_cons, List.length_append, List.length_nil] at hlength
          rcases furtherClauses_found H rest hlast hshape hwf.2 hback (by omega) with
            ⟨hcloses, as, mid, found, hmanys, hfound, hread⟩
          rcases clauseBody_found H hwf.1.1 hwf.1.2 hfront (by omega) hcloses with
            ⟨tsCondition, v, inner, condition', body', rfl, hv, hcondition, hbody, hconditionRead,
              hbodyRead⟩
          refine ⟨.choice (.first condition' body' :: as ++ (found.map Clause.otherwise).toList), ?_,
            congrArg Stat.choice
              (congrArg₂ List.cons (congrArg₂ Clause.first hconditionRead hbodyRead) hread)⟩
          simp only [List.cons_append, List.append_assoc, List.nil_append]
          refine (statement_reserved ht (by decide)).trans ?_
          refine (passed ht (by decide) _).trans ?_
          refine (passed ht (by decide) _).trans ?_
          refine (passed ht (by decide) _).trans ?_
          refine orElse_found ?_
          refine (bind_found (sign_found ht _)).trans ?_
          refine (bind_found (need_found hcondition)).trans ?_
          refine (bind_found (need_found (sign_found hv _))).trans ?_
          refine (bind_found hbody).trans ?_
          refine (bind_found (many_of_manys hmanys)).trans ?_
          refine (bind_found hfound).trans ?_
          exact bind_found (need_found (sign_found hlast rest))

/-!
## Loops over a range and over an iterator
-/

theorem step_found (H : en.Rereads style encoding bound) {step : Option Expr} {depth : Nat}
    {ts : List Token} (more : List Token) {t : Token} (hstep : optionWellFormed encoding step)
    (hreads : Reads ((if step.isSome then commaPieces else []) ++ optionPieces style depth step) ts)
    (hlength : ts.length ≤ bound) (ht : t.is "do" = true) :
    Stops (ts ++ t :: more) ∧ ∃ step',
      LuaBundle.Lua.Parser.optional (do let _ ← sign ","; Parser.need (en.expr 1))
        (ts ++ t :: more) = .found step' (t :: more) ∧
      strippedOption .binary step' = strippedOption regrouped step := by
  have hstops : Stops (t :: more) := stops_of_is _ ht (by decide)
  cases step with
  | none =>
      rw [optionPieces] at hreads
      cases hreads
      refine ⟨hstops, none, ?_, rfl⟩
      exact optional_absent (bind_absent (sign_absent (is_eq_false ht (by decide))))
  | some e =>
      rw [Option.isSome_some, if_pos rfl, optionPieces] at hreads
      simp (disch := decide) only [commaPieces, List.cons_append, List.nil_append, reads_sign,
        reads_gap] at hreads
      rcases hreads with ⟨comma, inner, rfl, hcomma, hinner⟩
      simp only [List.length_cons] at hlength
      rcases H.free hstep hinner (by omega) hstops with ⟨e', hfound, hread⟩
      refine ⟨stops_comma comma _ hcomma, some e', ?_, congrArg some hread⟩
      exact optional_found ((bind_found (sign_found hcomma _)).trans (need_found hfound))

theorem forRange_found (H : en.Rereads style encoding bound) {counter : Name} {first last : Expr}
    {step : Option Expr} {body : List Stat} {depth : Nat} {ts rest : List Token}
    (hs : (Stat.forRange counter first last step body).WellFormed encoding)
    (hreads : Reads ((Stat.forRange counter first last step body).pieces style depth) ts)
    (hlength : ts.length ≤ bound) :
    ∃ s', statement en (ts ++ rest) = .found s' rest ∧
      (Stat.forRange counter first last step body).ReadAs s' := by
  rcases hs with ⟨hcounter, hfirst, hlast, hstep, hbody⟩
  simp only [Stat.pieces, spacedSign, commaPieces, List.cons_append, List.append_assoc,
    List.nil_append] at hreads
  rw [← List.append_assoc (if step.isSome = true then [Piece.token ",", Piece.gap] else [])]
    at hreads
  simp (disch := decide) only [reads_sign, reads_gap, reads_word hcounter.alone,
    @reads_append (enclosed _ _)] at hreads
  rcases hreads with ⟨t, _, rfl, ht, n, _, rfl, hkind, htext, equals, _, rfl, hequals,
    tsFirst, _, rfl, htsFirst, comma, _, rfl, hcomma, tsLast, _, rfl, htsLast, hmore⟩
  rcases reads_append.mp hmore with ⟨tsStep, _, rfl, htsStep, hmore⟩
  simp (disch := decide) only [reads_sign, reads_gap] at hmore
  rcases hmore with ⟨opening, _, rfl, hopening, hmore⟩
  rcases reads_closedBody (by decide) hmore with ⟨inner, closing, rfl, hinner, hclosing⟩
  simp only [List.length_cons, List.length_append, List.length_nil] at hlength
  rcases step_found H (inner ++ closing :: rest) hstep htsStep (by omega) hopening with
    ⟨hstops, step', hstepFound, hstepRead⟩
  rcases H.free hfirst htsFirst (by omega) (stops_comma comma
    (tsLast ++ (tsStep ++ opening :: (inner ++ closing :: rest))) hcomma) with
    ⟨first', hfirstFound, hfirstRead⟩
  rcases H.free hlast htsLast (by omega) hstops with ⟨last', hlastFound, hlastRead⟩
  rcases H.block hbody hinner (by omega) (closes_of_is rest hclosing (by decide)) with
    ⟨body', hfound, hread⟩
  refine ⟨.forRange counter.stripped first' last' step' body', ?_, ?_⟩
  · simp only [List.cons_append, List.append_assoc, List.nil_append]
    refine (statement_later ht (by decide)).trans ?_
    refine orElse_found ?_
    refine (bind_found (sign_found ht _)).trans ?_
    refine (bind_found (need_found (name_found hkind htext _))).trans ?_
    refine (bind_found (sign_found hequals _)).trans ?_
    refine (bind_found (need_found hfirstFound)).trans ?_
    refine (bind_found (need_found (sign_found hcomma _))).trans ?_
    refine (bind_found (need_found hlastFound)).trans ?_
    refine (bind_found hstepFound).trans ?_
    refine (bind_found (need_found (sign_found hopening _))).trans ?_
    refine (bind_found hfound).trans ?_
    exact bind_found (need_found (sign_found hclosing rest))
  · unfold Stat.ReadAs
    simp only [Stat.stripped, hstepRead, hread, stripped_stripped,
      show first'.stripped .binary = first.stripped regrouped from hfirstRead,
      show last'.stripped .binary = last.stripped regrouped from hlastRead]

theorem names_found {names : List Name} {ts : List Token} (rest : List Token) (hne : names ≠ [])
    (hnames : ∀ n ∈ names, Spelled encoding .name n.text)
    (hreads : Reads (namePieces names) ts) (hcomma : sign "," rest = .absent) :
    separated name (ts ++ rest) = .found (names.map Name.stripped) rest := by
  have hitem : ∀ item ∈ names, ∀ ts' more, Reads [.token item.text] ts' →
      ts'.length < ts.length + 1 → True → ∃ a, name (ts' ++ more) = .found a more ∧
        item.stripped = a := by
    intro item hitem ts' more hts _ _
    exact ⟨_, name_item item (hnames item hitem).alone hts more, rfl⟩
  rcases separated_found (fun _ _ _ => trivial) hitem trivial (bind_absent hcomma) hne hreads
    (Nat.lt_succ_self _) with ⟨as, hfound, hgoods⟩
  have has := map_eq_of_forall₂ hgoods
  rw [List.map_id'] at has
  rw [has]
  exact hfound

theorem forEach_found (H : en.Rereads style encoding bound) {vars : List Name}
    {iterators : List Expr} {body : List Stat} {depth : Nat} {ts rest : List Token}
    (hs : (Stat.forEach vars iterators body).WellFormed encoding)
    (hreads : Reads ((Stat.forEach vars iterators body).pieces style depth) ts)
    (hlength : ts.length ≤ bound) :
    ∃ s', statement en (ts ++ rest) = .found s' rest ∧
      (Stat.forEach vars iterators body).ReadAs s' := by
  rcases hs with ⟨hvars, hnames, hiterators, hiteratorsWf, hbody⟩
  simp (disch := decide) only [Stat.pieces, List.cons_append, List.append_assoc, reads_sign,
    reads_gap, reads_append] at hreads
  rcases hreads with ⟨t, _, rfl, ht, tsVars, _, rfl, htsVars, u, _, rfl, hu, tsIterators, _, rfl,
    htsIterators, opening, _, rfl, hopening, hmore⟩
  rcases reads_closedBody (by decide) hmore with ⟨inner, closing, rfl, hinner, hclosing⟩
  simp only [List.length_cons, List.length_append, List.length_nil] at hlength
  have hvarsFound := fun more : List Token => names_found (u :: more) hvars hnames htsVars
    (sign_absent (is_eq_false hu (by decide)))
  rcases values_found H hiteratorsWf hiterators htsIterators (by omega)
    (stops_of_is (inner ++ closing :: rest) hopening (by decide))
    (sign_absent (is_eq_false hopening (by decide))) with
    ⟨iterators', hiteratorsFound, hiteratorsRead⟩
  rcases H.block hbody hinner (by omega) (closes_of_is rest hclosing (by decide)) with
    ⟨body', hfound, hread⟩
  -- The loop over a range finds no sign `=` behind the first variable.
  have hrange : ∀ more, forRange en (t :: (tsVars ++ u :: more)) = .absent := by
    intro more
    refine (bind_found (sign_found ht _)).trans ?_
    cases vars with
    | nil => exact absurd rfl hvars
    | cons n names =>
        rw [namePieces, List.map_cons, commaSeparated_cons] at htsVars
        rcases reads_append.mp htsVars with ⟨front, back, rfl, hfront, hback⟩
        rw [List.append_assoc]
        refine (bind_found (need_found (name_item n (hnames n (by simp)).alone hfront _))).trans ?_
        refine bind_absent ?_
        cases names with
        | nil =>
            cases hback
            exact sign_absent (is_eq_false hu (by decide))
        | cons next names =>
            rcases reads_commas hback with ⟨comma, front, back, rfl, hcomma, _⟩
            exact sign_absent (is_eq_false hcomma (by decide))
  refine ⟨.forEach (vars.map Name.stripped) iterators' body', ?_, ?_⟩
  · simp only [List.cons_append, List.append_assoc, List.nil_append]
    refine (statement_later ht (by decide)).trans ?_
    refine (orElse_absent (hrange _)).trans ?_
    refine orElse_found ?_
    refine (bind_found (sign_found ht _)).trans ?_
    refine (bind_found (need_found (hvarsFound _))).trans ?_
    refine (bind_found (need_found (sign_found hu _))).trans ?_
    refine (bind_found (need_found hiteratorsFound)).trans ?_
    refine (bind_found (need_found (sign_found hopening _))).trans ?_
    refine (bind_found hfound).trans ?_
    exact bind_found (need_found (sign_found hclosing rest))
  · unfold Stat.ReadAs
    simp only [Stat.stripped, hiteratorsRead, hread, List.map_map, Function.comp_def,
      stripped_stripped]

/-!
## Declarations of functions
-/

theorem dotted_shape {e : Expr} (h : e.IsDotted encoding) :
    e.inParens = false ∧ e.isPrefixed = true := by
  cases e <;> simp_all [Expr.IsDotted, Expr.inParens, Expr.isPrefixed]

theorem stripped_dotted : (e : Expr) → e.IsDotted encoding →
    (e.stripped regrouped).stripped .binary = e.stripped regrouped
  | .name _, _ => rfl
  | .member base indexer n, he => by
      rw [Expr.stripped, Expr.stripped, stripped_dotted base he.2.1, stripped_stripped]

theorem dotted_found {depth : Nat} : (e : Expr) → e.IsDotted encoding →
    ∀ {ts : List Token}, Reads (e.pieces style depth) ts →
      ∃ (n : Name) (members : List Name) (t : Token) (back : List Token),
        ts = t :: back ∧ t.kind = .name ∧ t.text = n.text ∧
        (∀ rest as mid, Manys (do let _ ← sign "."; name) rest as mid →
          Manys (do let _ ← sign "."; name) (back ++ rest) (members ++ as) mid) ∧
        members.foldl (fun base member => Expr.member base .dot member) (.name n.stripped) =
          e.stripped regrouped
  | .name n, he, ts, hreads => by
      rw [Expr.pieces, reads_word he.alone] at hreads
      rcases hreads with ⟨t, _, rfl, hkind, htext, hback⟩
      cases hback
      exact ⟨n, [], t, [], rfl, hkind, htext, fun _ _ _ h => h, rfl⟩
  | .member base indexer n, he, ts, hreads => by
      rcases he with ⟨rfl, hbase, hn⟩
      rw [Expr.pieces] at hreads
      rcases reads_append.mp hreads with ⟨front, back, rfl, hfront, hback⟩
      rw [(dotted_shape hbase).1, (dotted_shape hbase).2] at hfront
      rcases dotted_found base hbase hfront with
        ⟨first, members, t, more, rfl, hkind, htext, hmanys, hfold⟩
      simp (disch := decide) only [Indexer.sign, reads_sign, reads_word hn.alone, reads_nil]
        at hback
      rcases hback with ⟨dot, _, rfl, hdot, u, _, rfl, hukind, hutext, rfl⟩
      refine ⟨first, members ++ [n.stripped], t, more ++ [dot, u], rfl, hkind, htext, ?_, ?_⟩
      · intro rest as mid h
        have hmember : (do let _ ← sign "."; name) (dot :: u :: rest) = .found n.stripped rest :=
          (bind_found (sign_found hdot _)).trans (name_found hukind hutext rest)
        have hlast := hmanys (dot :: u :: rest) (n.stripped :: as) mid
          (.more hmember (by simp only [List.length_cons]; omega) h)
        simpa using hlast
      · rw [List.foldl_append, hfold]
        rfl

def methodName (base : Expr) : Parser Expr := do
  match ← LuaBundle.Lua.Parser.optional (do let _ ← sign ":"; Parser.need name) with
  | none => return base
  | some method => return .member base .colon method

theorem functionName_dotted {e : Expr} {depth : Nat} {ts more : List Token} {t : Token}
    (he : e.IsDotted encoding) (hreads : Reads (e.pieces style depth) ts)
    (ht : t.is "." = false) :
    functionName (ts ++ t :: more) = methodName (e.stripped regrouped) (t :: more) := by
  rcases dotted_found e he hreads with ⟨n, members, u, back, rfl, hkind, htext, hmanys, hfold⟩
  have hmembers := hmanys (t :: more) [] (t :: more) (.stop (bind_absent (sign_absent ht)))
  rw [List.append_nil] at hmembers
  refine (bind_found (need_found (name_found hkind htext _))).trans ?_
  refine (bind_found (many_of_manys hmembers)).trans ?_
  rw [← hfold]
  rfl

theorem functionName_found {name : Option Expr} {depth : Nat} {ts : List Token}
    (more : List Token) {t : Token}
    (hname : FunctionName encoding false name) (hreads : Reads (optionPieces style depth name) ts)
    (ht : t.is "(" = true) :
    ∃ e', functionName (ts ++ t :: more) = .found e' (t :: more) ∧
      strippedOption .binary (some e') = strippedOption regrouped name := by
  have hnone : ∀ base, methodName base (t :: more) = .found base (t :: more) := fun base =>
    bind_found (optional_absent (bind_absent (sign_absent (is_eq_false ht (by decide)))))
  have hdotted : ∀ e : Expr, e.IsDotted encoding → Reads (optionPieces style depth (some e)) ts →
      ∃ e', functionName (ts ++ t :: more) = .found e' (t :: more) ∧
        strippedOption .binary (some e') = strippedOption regrouped (some e) := by
    intro e he hreads
    rw [optionPieces, (dotted_shape he).1] at hreads
    refine ⟨e.stripped regrouped, ?_, congrArg some (stripped_dotted e he)⟩
    rw [functionName_dotted he hreads (is_eq_false ht (by decide)), hnone]
  cases name with
  | none => cases hname
  | some e =>
      cases e with
      | name n => exact hdotted _ hname hreads
      | member base indexer n =>
          rcases hname with ⟨_, hbase, hn⟩
          cases indexer with
          | dot => exact hdotted _ ⟨rfl, hbase, hn⟩ hreads
          | colon =>
              rw [optionPieces, Expr.pieces, (dotted_shape hbase).1, (dotted_shape hbase).2]
                at hreads
              rcases reads_append.mp hreads with ⟨front, back, rfl, hfront, hback⟩
              simp (disch := decide) only [Indexer.sign, reads_sign, reads_word hn.alone,
                reads_nil] at hback
              rcases hback with ⟨u, _, rfl, hu, v, _, rfl, hkind, htext, rfl⟩
              refine ⟨.member (base.stripped regrouped) .colon n.stripped, ?_, ?_⟩
              · simp only [List.append_assoc, List.cons_append, List.nil_append]
                rw [functionName_dotted hbase hfront (is_eq_false hu (by decide))]
                exact bind_found (optional_found ((bind_found (sign_found hu _)).trans
                  (need_found (name_found hkind htext _))))
              · simp only [strippedOption, Expr.stripped, stripped_dotted base hbase,
                  stripped_stripped]
      | _ => cases hname

theorem functionDeclaration_found (H : en.Rereads style encoding bound) {name : Option Expr}
    {ps : List Expr} {body : List Stat} {depth : Nat} {ts rest : List Token}
    (hs : (Stat.function false name ps body).WellFormed encoding)
    (hreads : Reads ((Stat.function false name ps body).pieces style depth) ts)
    (hlength : ts.length ≤ bound) :
    ∃ s', statement en (ts ++ rest) = .found s' rest ∧
      (Stat.function false name ps body).ReadAs s' := by
  rcases hs with ⟨hname, hps, hbody⟩
  simp only [Stat.pieces, Bool.false_eq_true, if_false, List.nil_append, List.cons_append,
    List.append_assoc, reads_sign (Or.inl (by decide : "function" ∈ keywords)), reads_gap]
    at hreads
  rcases hreads with ⟨t, _, rfl, ht, hmore⟩
  rcases reads_append.mp hmore with ⟨tsName, tsBody, rfl, htsName, htsBody⟩
  simp only [List.length_cons, List.length_append] at hlength
  rcases functionBody_found H hps hbody htsBody (by omega) rest with
    ⟨ps', body', hbodyFound, hpsRead, hbodyRead⟩
  rcases (reads_sign (Or.inr (by decide))).mp htsBody with ⟨opening, inner, rfl, hopening, _⟩
  rcases functionName_found (inner ++ rest) hname htsName hopening with
    ⟨name', hnameFound, hnameRead⟩
  refine ⟨.function false (some name') ps' body', ?_, ?_⟩
  · simp only [List.cons_append, List.append_assoc]
    refine (statement_later ht (by decide)).trans ?_
    refine (passed ht (by decide) _).trans ?_
    refine (passed ht (by decide) _).trans ?_
    refine orElse_found ?_
    refine (bind_found (sign_found ht _)).trans ?_
    refine (bind_found hnameFound).trans ?_
    exact bind_found hbodyFound
  · unfold Stat.ReadAs
    rw [Stat.stripped, Stat.stripped, hnameRead, hpsRead, hbodyRead]

theorem statement_local {t : Token} (ht : t.is "local" = true) (rest : List Token) :
    statement en (t :: rest) = (localFunction en <|> locals en) (t :: rest) := by
  have hlater : ∀ p : Parser Stat, (p <|> gotoLabel <|> label) (t :: rest) = p (t :: rest) := by
    intro p
    rw [run_orElse]
    cases hp : p (t :: rest) with
    | found s' more => rfl
    | failed line => rfl
    | absent =>
        refine (passed ht (by decide) _).trans ?_
        exact bind_absent (sign_absent (is_eq_false ht (by decide)))
  refine (statement_last ht (by decide)).trans ?_
  have hlast := hlater (locals en)
  rw [run_orElse, run_orElse (localFunction en) (locals en)]
  split
  · exact hlast
  · rfl

theorem localFunction_found (H : en.Rereads style encoding bound) {name : Option Expr}
    {ps : List Expr} {body : List Stat} {depth : Nat} {ts rest : List Token}
    (hs : (Stat.function true name ps body).WellFormed encoding)
    (hreads : Reads ((Stat.function true name ps body).pieces style depth) ts)
    (hlength : ts.length ≤ bound) :
    ∃ s', statement en (ts ++ rest) = .found s' rest ∧
      (Stat.function true name ps body).ReadAs s' := by
  rcases hs with ⟨hname, hps, hbody⟩
  simp only [Stat.pieces, if_true, List.nil_append, List.cons_append, List.append_assoc,
    reads_sign (Or.inl (by decide : "function" ∈ keywords)),
    reads_sign (Or.inl (by decide : "local" ∈ keywords)), reads_gap] at hreads
  rcases hreads with ⟨t, _, rfl, ht, u, _, rfl, hu, hmore⟩
  rcases reads_append.mp hmore with ⟨tsName, tsBody, rfl, htsName, htsBody⟩
  simp only [List.length_cons, List.length_append] at hlength
  have hsingle : ∃ n, name = some (.name n) ∧ Spelled encoding .name n.text := by
    cases name with
    | none => cases hname
    | some e =>
        cases e with
        | name n => exact ⟨n, rfl, hname⟩
        | member base indexer n => exact absurd hname.1 (by decide)
        | _ => cases hname
  rcases hsingle with ⟨n, rfl, hn⟩
  rw [optionPieces, Expr.pieces] at htsName
  rcases functionBody_found H hps hbody htsBody (by omega) rest with
    ⟨ps', body', hbodyFound, hpsRead, hbodyRead⟩
  refine ⟨.function true (some (.name n.stripped)) ps' body', ?_, ?_⟩
  · simp only [List.cons_append, List.append_assoc]
    refine (statement_local ht _).trans (orElse_found ?_)
    refine (bind_found (sign_found ht _)).trans ?_
    refine (bind_found (sign_found hu _)).trans ?_
    refine (bind_found (need_found (name_item n hn.alone htsName _))).trans ?_
    exact bind_found hbodyFound
  · unfold Stat.ReadAs
    rw [Stat.stripped, Stat.stripped, hpsRead, hbodyRead]
    rfl

/-!
## Local variables
-/

theorem localVar_found {v : LocalVar} {ts rest : List Token} (hv : v.WellFormed encoding)
    (hreads : Reads v.pieces ts) (hrest : sign "<" rest = .absent) :
    ∃ v', localVar (ts ++ rest) = .found v' rest ∧ v'.stripped = v.stripped := by
  rcases v with ⟨n, attrib⟩
  have hn : Alone .name n.text := hv.1.alone
  cases attrib with
  | none =>
      rw [LocalVar.pieces] at hreads
      refine ⟨⟨n.stripped, none⟩, ?_, rfl⟩
      refine (bind_found (need_found (name_item n hn hreads rest))).trans ?_
      exact bind_found (optional_absent (bind_absent hrest))
  | some a =>
      have ha : Alone .name a.name := (hv.2 a rfl).alone
      simp (disch := decide) only [LocalVar.pieces, reads_word hn, reads_word ha, reads_gap,
        reads_sign, reads_nil] at hreads
      rcases hreads with ⟨t, _, rfl, hkind, htext, opening, _, rfl, hopening, u, _, rfl, hukind,
        hutext, closing, _, rfl, hclosing, rfl⟩
      refine ⟨⟨n.stripped, some ⟨u.text, u.line⟩⟩, ?_, ?_⟩
      · refine (bind_found (need_found (name_found hkind htext _))).trans ?_
        refine bind_found (optional_found ?_)
        refine (bind_found (sign_found hopening _)).trans ?_
        refine (bind_found (need_found (kind_found hukind _))).trans ?_
        exact bind_found (need_found (sign_found hclosing rest))
      · simp only [LocalVar.stripped, Option.map_some, Attribute.stripped, hutext,
          stripped_stripped]

theorem locals_found (H : en.Rereads style encoding bound) {vars : List LocalVar}
    {values : List Expr} {depth : Nat} {ts rest : List Token}
    (hs : (Stat.locals vars values).WellFormed encoding)
    (hreads : Reads ((Stat.locals vars values).pieces style depth) ts)
    (hlength : ts.length ≤ bound) (hrest : Ends rest) :
    ∃ s', statement en (ts ++ rest) = .found s' rest ∧ (Stat.locals vars values).ReadAs s' := by
  rcases hs with ⟨hvars, hvarsWf, hvalues⟩
  simp only [Stat.pieces, List.cons_append, reads_gap,
    reads_sign (Or.inl (by decide : "local" ∈ keywords))] at hreads
  rcases hreads with ⟨t, _, rfl, ht, hmore⟩
  rcases reads_append.mp hmore with ⟨tsVars, tsValues, rfl, htsVars, htsValues⟩
  simp only [List.length_cons, List.length_append] at hlength
  -- Behind the variables there is the sign `=` and the values, or nothing of both.
  have hend : sign "<" (tsValues ++ rest) = .absent ∧ sign "," (tsValues ++ rest) = .absent ∧
      ∃ values', LuaBundle.Lua.Parser.optional
          (do let _ ← sign "="; failHere (Parser.need (separated (en.expr 1)))) (tsValues ++ rest) =
          .found values' rest ∧
        strippedExprs .binary (values'.getD []) = strippedExprs regrouped values := by
    cases values with
    | nil =>
        cases htsValues
        refine ⟨hrest.sign_absent (by simp), hrest.sign_absent (by simp), none, ?_, rfl⟩
        exact optional_absent (bind_absent (hrest.sign_absent (by simp)))
    | cons e es =>
        simp only [List.isEmpty_cons, Bool.false_eq_true, if_false, spacedSign, List.cons_append,
          List.nil_append, reads_gap, reads_sign (Or.inr (by decide : "=" ∈ signs))] at htsValues
        rcases htsValues with ⟨equals, inner, rfl, hequals, hinner⟩
        simp only [List.length_cons] at hlength
        rcases values_found H hvalues (by simp) hinner (by omega) hrest.stops
          (hrest.sign_absent (by simp)) with ⟨values', hfound, hread⟩
        refine ⟨sign_absent (is_eq_false hequals (by decide)),
          sign_absent (is_eq_false hequals (by decide)), some values', optional_found ?_, hread⟩
        refine (bind_found (sign_found hequals _)).trans ?_
        exact failHere_found (need_found hfound)
  rcases hend with ⟨hless, hcomma, values', hvaluesFound, hvaluesRead⟩
  cases vars with
  | nil => exact absurd rfl hvars
  | cons v vs =>
      rw [List.map_cons, commaSeparated_cons] at htsVars
      rcases reads_append.mp htsVars with ⟨front, back, rfl, hfront, hback⟩
      have hfollow : ∀ (u : Token) (more : List Token), u.is "," = true →
          sign "<" (u :: more) = .absent := fun u more hu =>
        sign_absent (is_eq_false hu (by decide))
      have hitem : ∀ item ∈ vs, ∀ ts more, Reads item.pieces ts → ts.length < back.length + 1 →
          sign "<" more = .absent →
          ∃ v', localVar (ts ++ more) = .found v' more ∧ item.stripped = v'.stripped := by
        intro item hitem ts more hts _ hmore
        rcases localVar_found (hvarsWf item (by simp [hitem])) hts hmore with ⟨v', hfound, hread⟩
        exact ⟨v', hfound, hread.symm⟩
      rcases localVar_found (hvarsWf v (by simp)) hfront
        (follows_commas (fun ts => sign "<" ts = .absent) hfollow hless hback) with
        ⟨v', hvFound, hvRead⟩
      rcases manys_commas (fun ts => sign "<" ts = .absent) hfollow hitem hless
        (bind_absent hcomma) hback (Nat.le_succ _) with ⟨vs', hmanys, hgoods⟩
      have hfunction : localFunction en (t :: (front ++ (back ++ (tsValues ++ rest)))) =
          .absent := by
        refine (bind_found (sign_found ht _)).trans (bind_absent ?_)
        rcases v with ⟨n, attrib⟩
        have hname : ∃ u more, front = u :: more ∧ u.kind = .name := by
          have hn : Alone .name n.text := (hvarsWf ⟨n, attrib⟩ (by simp)).1.alone
          cases attrib <;> rw [LocalVar.pieces, reads_word hn] at hfront <;>
            rcases hfront with ⟨u, more, rfl, hkind, _⟩ <;> exact ⟨u, more, rfl, hkind⟩
        rcases hname with ⟨u, more, rfl, hkind⟩
        exact sign_absent (is_eq_false_of_kind (by simp [hkind]))
      refine ⟨.locals (v' :: vs') (values'.getD []), ?_, ?_⟩
      · simp only [List.cons_append, List.append_assoc]
        refine (statement_local ht _).trans ((orElse_absent hfunction).trans ?_)
        refine (bind_found (sign_found ht _)).trans ?_
        refine (bind_found hvFound).trans ?_
        refine (bind_found (many_of_manys hmanys)).trans ?_
        exact bind_found hvaluesFound
      · unfold Stat.ReadAs
        rw [Stat.stripped, Stat.stripped, List.map_cons, List.map_cons, hvRead,
          ← map_eq_of_forall₂ hgoods, hvaluesRead]

/-!
## Jumps
-/

theorem goto_found {n : Name} {depth : Nat} {ts rest : List Token}
    (hn : Spelled encoding .name n.text) (hreads : Reads ((Stat.goto n).pieces style depth) ts) :
    ∃ s', statement en (ts ++ rest) = .found s' rest ∧ (Stat.goto n).ReadAs s' := by
  simp (disch := decide) only [Stat.pieces, reads_sign, reads_gap, reads_word hn.alone,
    reads_nil] at hreads
  rcases hreads with ⟨t, _, rfl, ht, u, _, rfl, hkind, htext, rfl⟩
  refine ⟨.goto n.stripped, ?_, rfl⟩
  refine (statement_last ht (by decide)).trans ?_
  refine (passed ht (by decide) _).trans ?_
  refine (passed ht (by decide) _).trans ?_
  refine orElse_found ?_
  refine (bind_found (sign_found ht _)).trans ?_
  exact bind_found (need_found (name_found hkind htext rest))

theorem label_found {n : Name} {depth : Nat} {ts rest : List Token}
    (hn : Spelled encoding .name n.text) (hreads : Reads ((Stat.label n).pieces style depth) ts) :
    ∃ s', statement en (ts ++ rest) = .found s' rest ∧ (Stat.label n).ReadAs s' := by
  simp (disch := decide) only [Stat.pieces, reads_sign, reads_word hn.alone,
    reads_nil] at hreads
  rcases hreads with ⟨t, _, rfl, ht, u, _, rfl, hkind, htext, v, _, rfl, hv, rfl⟩
  refine ⟨.label n.stripped, ?_, rfl⟩
  refine (statement_last ht (by decide)).trans ?_
  refine (passed ht (by decide) _).trans ?_
  refine (passed ht (by decide) _).trans ?_
  refine (passed ht (by decide) _).trans ?_
  refine (bind_found (sign_found ht _)).trans ?_
  refine (bind_found (need_found (name_found hkind htext _))).trans ?_
  exact bind_found (need_found (sign_found hv rest))

theorem last_found (H : en.Rereads style encoding bound) {s : Stat} {depth : Nat}
    {ts : List Token} (more : List Token) {t : Token} (hs : s.WellFormed encoding)
    (hlast : s.isLast = true)
    (hreads : Reads (s.pieces style depth) ts) (hlength : ts.length ≤ bound)
    (ht : t.closesBlock = true) :
    ∃ s', lastStatement en (ts ++ t :: more) = .found s' (t :: more) ∧ s.ReadAs s' := by
  cases s with
  | leave =>
      simp (disch := decide) only [Stat.pieces, reads_sign, reads_nil] at hreads
      rcases hreads with ⟨u, _, rfl, hu, rfl⟩
      refine ⟨.leave, ?_, rfl⟩
      refine (passed hu (by decide) _).trans ?_
      exact bind_found (sign_found hu _)
  | ret values =>
      have hvalues : ∃ u inner, ts = u :: inner ∧ u.is "return" = true ∧
          Reads (commaSeparated (exprRows style depth values)) inner := by
        cases values with
        | nil =>
            simp (disch := decide) only [Stat.pieces, reads_sign, reads_nil] at hreads
            rcases hreads with ⟨u, _, rfl, hu, rfl⟩
            exact ⟨u, [], rfl, hu, by rw [exprRows]; exact .nil⟩
        | cons e es =>
            simp only [Stat.pieces, reads_sign (Or.inl (by decide : "return" ∈ keywords)),
              reads_gap] at hreads
            exact hreads
      rcases hvalues with ⟨u, inner, rfl, hu, hinner⟩
      simp only [List.length_cons] at hlength
      have hkind : t.startsSuffix = false ∧ t.startsExpr = false ∧ t.is "," = false ∧
          t.isStop = true := by
        simp only [Token.closesBlock, Bool.or_eq_true, beq_iff_eq, Token.isOneOf,
          Bool.and_eq_true] at ht
        rcases ht with hfinish | ⟨hreserved, htext⟩
        · have hno := fun texts => isOneOf_of_kind (t := t) (by simp [hfinish]) texts
          simp [Token.startsSuffix, Token.startsExpr, Token.startsValue, Token.isStop, hno, hfinish,
            Token.is]
        · have his : t.is t.text = true := is_of_eq hreserved rfl
          rw [startsSuffix_of_is his, startsExpr_of_is his, isStop_of_is his]
          simp only [List.contains_eq_mem, List.mem_cons, List.not_mem_nil, or_false,
            decide_eq_true_eq] at htext
          rcases htext with htext | htext | htext | htext <;>
            simp only [htext, Token.is, hreserved] <;> decide
      rcases hkind with ⟨_, hstart, hcomma, hstop⟩
      rcases expressions_found H hs hinner (by omega) hstop hstart hcomma more with
        ⟨values', hfound, hread⟩
      refine ⟨.ret values', orElse_found ?_, congrArg Stat.ret hread⟩
      refine (bind_found (sign_found hu _)).trans ?_
      exact bind_found hfound
  | _ => cases hlast

end Statements

end Lua
end LuaBundle
