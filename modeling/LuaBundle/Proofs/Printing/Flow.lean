import LuaBundle.Proofs.Grammar.Statements
import LuaBundle.Proofs.Printing.Trail
import LuaBundle.Proofs.Tree.Names

/-!
# Printed trees run on

Wherever an expression or a statement is printed, every token may follow the one before it.
Spread out this holds of all well-formed trees, and tight it holds of those whose names are
ASCII.
-/

namespace LuaBundle
namespace Lua

open Text

section Flows

variable {style : Style} {encoding : Encoding}

/-- Whether names may be printed in a style. -/
def Prints (style : Style) (names : List String) : Prop :=
  style = .compact → ∀ name ∈ names, isAsciiName name = true

theorem prints_append {names more : List String} :
    Prints style (names ++ more) ↔ Prints style names ∧ Prints style more := by
  simp only [Prints, List.mem_append, or_imp, forall_and]

theorem prints_cons {name : String} {more : List String} :
    Prints style (name :: more) ↔
      (style = .compact → isAsciiName name = true) ∧ Prints style more := by
  simp only [Prints, List.mem_cons, forall_eq_or_imp, forall_and]

/-!
## Rows and parentheses
-/

theorem Flows.closed_of_ready {ps : List Piece} (h : Flows style encoding Trail.Ready ps) :
    Flows style encoding Trail.Closed ps :=
  h.mono fun _ => Trail.Closed.ready

theorem Flows.opens_of_ready {ps : List Piece} (h : Flows style encoding Trail.Ready ps) :
    Flows style encoding (Trail.Opens style) ps :=
  h.mono fun _ => Trail.Opens.ready

theorem flows_enclosed (parens : Bool) {ps : List Piece}
    (h : Flows style encoding (Trail.Opens style) ps) :
    Flows style encoding (Trail.Opens style) (enclosed parens ps) := by
  cases parens with
  | false => exact h
  | true =>
      have hinner : Flows style encoding (Trail.Opens style) (ps ++ [.token ")"]) :=
        h.append (flows_sign_closed (by decide) flows_nil Trail.closed_clear)
      have hall : Flows style encoding Trail.Ready (.token "(" :: (ps ++ [.token ")"])) :=
        flows_sign _ (by decide) (by decide) hinner (Trail.opens_clear style)
      exact hall.opens_of_ready

theorem flows_comma {ps : List Piece} (h : Flows style encoding (Trail.Opens style) ps) :
    Flows style encoding Trail.Closed (commaPieces ++ ps) :=
  flows_sign_closed (by decide) (flows_gap h) Trail.closed_clear

theorem flows_commas {rows : List (List Piece)}
    (hrows : ∀ row ∈ rows, Flows style encoding (Trail.Opens style) row) :
    Flows style encoding Trail.Closed (rows.flatMap (commaPieces ++ ·)) := by
  induction rows with
  | nil => exact flows_nil
  | cons row rows ih =>
      have hmore := ih fun r hr => hrows r (by simp [hr])
      exact flows_comma ((hrows row (by simp)).append hmore)

theorem flows_separated {rows : List (List Piece)} (hne : rows ≠ [])
    (hrows : ∀ row ∈ rows, Flows style encoding (Trail.Opens style) row) :
    Flows style encoding (Trail.Opens style) (commaSeparated rows) := by
  cases rows with
  | nil => exact absurd rfl hne
  | cons row rows =>
      rw [commaSeparated_cons]
      exact (hrows row (by simp)).append (flows_commas fun r hr => hrows r (by simp [hr]))

theorem Flows.clear_of_opens {ps : List Piece} (h : Flows style encoding (Trail.Opens style) ps) :
    Flows style encoding (· = Trail.clear) ps :=
  h.mono fun _ htrail => Or.inl htrail

theorem Flows.clear_of_closed {ps : List Piece} (h : Flows style encoding Trail.Closed ps) :
    Flows style encoding (· = Trail.clear) ps :=
  h.mono fun _ htrail => Or.inl htrail

theorem flows_separated_clear {rows : List (List Piece)}
    (hrows : ∀ row ∈ rows, Flows style encoding (Trail.Opens style) row) :
    Flows style encoding (· = Trail.clear) (commaSeparated rows) := by
  cases rows with
  | nil => exact flows_nil.clear_of_closed
  | cons row rows => exact (flows_separated (by simp) hrows).clear_of_opens

theorem flows_operator (op : BinaryOp) {ps : List Piece}
    (h : Flows style encoding (Trail.Opens style) ps) :
    Flows style encoding Trail.Closed (spacedSign op.sign ++ ps) := by
  have hgap : ∀ trail : Trail, trail = .clear ∨ trail = .operand ∨ trail = .word →
      trail.Step style encoding .gap (trail.spread style) ∧ (trail.spread style).Opens style := by
    intro trail htrail
    refine ⟨.gap, ?_⟩
    cases style with
    | pretty => exact Or.inl rfl
    | compact => exact htrail.imp_right fun h => h.imp_right fun h => ⟨h, rfl⟩
  have hmore := flows_cons _ hgap h
  have hword : ∀ word, word ∈ keywords → Flows style encoding Trail.Closed
      (spacedSign word ++ ps) := by
    intro word hword
    refine flows_gap (flows_cons (fun _ => .word) (fun trail htrail => ⟨.keyword hword ?_,
      Or.inr (Or.inr rfl)⟩) hmore)
    intro c hc
    obtain ⟨hchar, hplain⟩ := keyword_head hword c hc
    exact accepts_opens htrail (fun _ _ => hchar) hplain
  have hsign : ∀ word, word ∈ signs → (Trail.afterSign word ≠ .select) →
      Flows style encoding Trail.Closed (spacedSign word ++ ps) := by
    intro word hword hselect
    refine flows_gap_closed (flows_sign_closed hword hmore ?_)
    rcases Trail.afterSign_cases word with hclear | hoperand | hafter
    · exact Or.inl hclear
    · exact Or.inr (Or.inl hoperand)
    · exact absurd hafter hselect
  by_cases hshift : op = .shiftRight
  · subst hshift
    refine flows_gap_closed (flows_cons (fun _ => .clear)
      (fun trail htrail => ⟨.shift ?_, Or.inl rfl⟩) hmore)
    intro c hc
    cases hc
    exact accepts_closed htrail (by decide)
  · cases op with
    | or => exact hword _ (by decide)
    | and => exact hword _ (by decide)
    | shiftRight => exact absurd rfl hshift
    | _ => exact hsign _ (by decide) (by decide)

theorem flows_assigned {ps : List Piece} (h : Flows style encoding (Trail.Opens style) ps) :
    Flows style encoding Trail.Closed (spacedSign "=" ++ ps) :=
  flows_gap_closed (flows_sign_closed (by decide) (flows_gap h) Trail.closed_clear)

/-!
## Bodies and tables
-/

theorem flows_closedBody {depth : Nat} {closing : String} {body : List Stat}
    (h : closing ∈ keywords)
    (hbody : Flows style encoding Trail.Closed (blockPieces style (depth + 1) false body)) :
    Flows style encoding Trail.Closed
      (closedBody depth closing body (blockPieces style (depth + 1) false body)) := by
  have hclosing : Flows style encoding (Trail.Opens style) [.token closing] :=
    flows_keyword _ h flows_nil
  cases body with
  | nil => exact flows_gap hclosing
  | cons s rest => exact hbody.append (flows_newline _ hclosing)

theorem flows_spread (depth : Nat) {rows : List (List Piece)}
    (hrows : ∀ row ∈ rows, Flows style encoding (Trail.Opens style) row) :
    Flows style encoding Trail.Closed
      (rows.flatMap fun row => .newline depth :: row ++ [.token ","]) := by
  induction rows with
  | nil => exact flows_nil
  | cons row rows ih =>
      have hrow : Flows style encoding (Trail.Opens style) (row ++ [.token ","]) :=
        (hrows row (by simp)).append
          (flows_sign_closed (by decide) flows_nil Trail.closed_clear)
      exact (flows_newline _ hrow).append (ih fun r hr => hrows r (by simp [hr]))

theorem flows_tight {rows : List (List Piece)}
    (hrows : ∀ row ∈ rows, Flows style encoding (Trail.Opens style) row) :
    Flows style encoding (· = Trail.clear) ([Piece.token ","].intercalate rows) := by
  induction rows with
  | nil => exact flows_nil.clear_of_closed
  | cons row rows ih =>
      have hfirst := (hrows row (by simp)).clear_of_opens
      cases rows with
      | nil => simpa [List.intercalate] using hfirst
      | cons next rows =>
          have hmore := ih fun r hr => hrows r (by simp [hr])
          have hrest : Flows style encoding Trail.Closed
              (.token "," :: [Piece.token ","].intercalate (next :: rows)) :=
            flows_sign_closed (by decide) hmore rfl
          rw [List.intercalate_cons_cons]
          simpa using hfirst.append hrest

theorem flows_table {depth : Nat} {rows : List (List Piece)}
    (hrows : ∀ row ∈ rows, Flows style encoding (Trail.Opens style) row) :
    Flows style encoding Trail.Ready (tablePieces style depth rows) := by
  have hclosing : Flows style encoding Trail.Closed [.token "\x7d"] :=
    flows_sign_closed (by decide) flows_nil Trail.closed_clear
  have hbraces : ∀ {ps}, Flows style encoding (· = Trail.clear) ps →
      Flows style encoding Trail.Ready (.token "\x7b" :: (ps ++ [.token "\x7d"])) := fun hps =>
    flows_sign _ (by decide) (by decide) (hps.append hclosing) rfl
  cases rows with
  | nil => exact hbraces flows_nil.clear_of_closed
  | cons row rows =>
      cases style with
      | pretty =>
          have hinner := (flows_spread (depth + 1) hrows).append
            (flows_newline_closed depth hclosing)
          exact flows_sign _ (by decide) (by decide) hinner Trail.closed_clear
      | compact => exact hbraces (flows_tight hrows)

/-!
## Names
-/

theorem flows_var {v : LocalVar} (hv : v.WellFormed encoding) (hnames : Prints style v.names) :
    Flows style encoding (Trail.Opens style) v.pieces := by
  rcases v with ⟨n, attrib⟩
  cases attrib with
  | none =>
      rw [LocalVar.names, Option.map_none, Option.toList_none, prints_cons] at hnames
      exact flows_name hv.1 hnames.1 flows_nil
  | some a =>
      rw [LocalVar.names, Option.map_some, Option.toList_some, prints_cons, prints_cons] at hnames
      have hclosing : Flows style encoding Trail.Closed [.token ">"] :=
        flows_sign_closed (by decide) flows_nil Trail.closed_clear
      have hattrib : Flows style encoding (Trail.Opens style) [.token a.name, .token ">"] :=
        flows_name (hv.2 a rfl) hnames.2.1 hclosing
      have hopening : Flows style encoding Trail.Closed
          [.token "<", .token a.name, .token ">"] :=
        flows_sign_closed (by decide) hattrib (Or.inr (Or.inl rfl))
      exact flows_name hv.1 hnames.1 (flows_gap_closed hopening)

theorem flows_names {names : List Name} (hne : names ≠ [])
    (hwf : ∀ n ∈ names, Spelled encoding .name n.text)
    (hnames : Prints style (names.map Name.text)) :
    Flows style encoding (Trail.Opens style) (namePieces names) := by
  refine flows_separated (by simpa using hne) ?_
  intro row hrow
  rcases List.mem_map.mp hrow with ⟨n, hn, rfl⟩
  exact flows_name (hwf n hn) (fun hstyle => hnames hstyle _ (List.mem_map_of_mem hn)) flows_nil

theorem flows_member {indexer : Indexer} {n : Name} (hn : Spelled encoding .name n.text)
    (hnames : Prints style [n.text]) :
    Flows style encoding Trail.Closed [.token indexer.sign, .token n.text] := by
  have hname := flows_selected hn (prints_cons.mp hnames).1 flows_nil
  cases indexer with
  | dot => exact flows_sign_closed (by decide) hname rfl
  | colon => exact flows_sign_closed (by decide) hname rfl

/-!
## Trees
-/

theorem flows_body {closing : String} {depth : Nat} {body : List Stat} {word : String}
    (hword : word ∈ keywords) (h : closing ∈ keywords)
    (hbody : Flows style encoding Trail.Closed (blockPieces style (depth + 1) false body)) :
    Flows style encoding (Trail.Opens style)
      (.token word :: closedBody depth closing body (blockPieces style (depth + 1) false body)) :=
  flows_keyword _ hword (flows_closedBody h hbody)

theorem flows_doBody {depth : Nat} {body : List Stat}
    (hbody : Flows style encoding Trail.Closed (blockPieces style (depth + 1) false body)) :
    Flows style encoding (Trail.Opens style)
      (.token "do" :: closedBody depth "end" body (blockPieces style (depth + 1) false body)) :=
  flows_body (by decide) (by decide) hbody

theorem flows_clause {word : String} {condition statements : List Piece}
    (hword : word ∈ keywords) (hcondition : Flows style encoding (Trail.Opens style) condition)
    (hstatements : Flows style encoding Trail.Closed statements) :
    Flows style encoding (Trail.Opens style)
      (.token word :: .gap :: (condition ++ .gap :: .token "then" :: statements)) :=
  flows_keyword _ hword (flows_gap (hcondition.append
    (flows_gap (flows_keyword _ (by decide) hstatements))))

theorem flows_parameters {depth : Nat} {rows : List (List Piece)} {body : List Stat}
    (hrows : ∀ row ∈ rows, Flows style encoding (Trail.Opens style) row)
    (hbody : Flows style encoding Trail.Closed (blockPieces style (depth + 1) false body)) :
    Flows style encoding Trail.Closed (.token "(" :: (commaSeparated rows ++ .token ")"
      :: closedBody depth "end" body (blockPieces style (depth + 1) false body))) := by
  have hclosing : Flows style encoding Trail.Closed
      (.token ")" :: closedBody depth "end" body (blockPieces style (depth + 1) false body)) :=
    flows_sign_closed (by decide) (flows_closedBody (by decide) hbody) Trail.closed_clear
  exact flows_sign_closed (by decide) ((flows_separated_clear hrows).append hclosing) rfl

mutual

theorem Expr.flows (style : Style) (depth : Nat) {callee : Bool} : (e : Expr) →
    e.WellFormed encoding callee → Prints style e.names →
    Flows style encoding (Trail.Opens style) (e.pieces style depth)
  | .name n, he, hnames => by
      rw [Expr.pieces]
      exact flows_name he (prints_cons.mp hnames).1 flows_nil
  | .string literal, he, _ => (flows_string he flows_nil).opens_of_ready
  | .number (.written raw) _, he, _ => flows_numeral he flows_nil
  | .boolean true, _, _ => flows_keyword _ (by decide) flows_nil
  | .boolean false, _, _ => flows_keyword _ (by decide) flows_nil
  | .nil, _, _ => flows_keyword _ (by decide) flows_nil
  | .vararg inParens line, _, _ => by
      have hsign : Flows style encoding Trail.Ready [.token "..."] :=
        flows_sign _ (by decide) (by decide) flows_nil Trail.closed_clear
      exact hsign.opens_of_ready
  | .function parameters body, he, hnames => by
      rcases prints_append.mp hnames with ⟨hnames, hbodyNames⟩
      have hrows := exprs_flow style depth parameters (parameters_wellFormed he.1) hnames
      have hbody := block_flows style (depth + 1) false body he.2 hbodyNames
      rw [Expr.pieces]
      exact flows_keyword _ (by decide) (flows_parameters hrows hbody)
  | .table fields, he, hnames => by
      rw [Expr.pieces]
      exact (flows_table (fields_flow style (depth + 1) fields he hnames)).opens_of_ready
  | .binary op left right, he, hnames => by
      rcases prints_append.mp hnames with ⟨hleft, hright⟩
      rw [Expr.pieces, List.append_assoc]
      exact (flows_enclosed _ (left.flows style depth he.1 hleft)).append
        (flows_operator op (flows_enclosed _ (right.flows style depth he.2 hright)))
  | .unary op operand, he, hnames => by
      have hoperand : Flows style encoding (Trail.Opens style)
          (enclosed (operand.inParens || operand.needsParens .operand)
            (operand.pieces style depth)) :=
        flows_enclosed _ (operand.flows style depth he hnames)
      rw [Expr.pieces]
      cases op with
      | not => exact flows_keyword _ (by decide) (flows_gap hoperand)
      | minus =>
          have hsign := flows_sign "-" (by decide) (by decide) hoperand (Or.inl rfl)
          exact hsign.opens_of_ready
      | length =>
          have hsign := flows_sign "#" (by decide) (by decide) hoperand
            (Or.inr (Or.inl rfl))
          exact hsign.opens_of_ready
      | bitNot =>
          have hsign := flows_sign "~" (by decide) (by decide) hoperand (Or.inl rfl)
          exact hsign.opens_of_ready
  | .member base indexer n, he, hnames => by
      rcases prints_append.mp hnames with ⟨hbase, hn⟩
      rw [Expr.pieces]
      exact (flows_enclosed _ (base.flows style depth he.2.2.1 hbase)).append
        (flows_member he.2.2.2 hn)
  | .index base key, he, hnames => by
      rcases prints_append.mp hnames with ⟨hbase, hkeyNames⟩
      have hclosing : Flows style encoding Trail.Closed [.token "]"] :=
        flows_sign_closed (by decide) flows_nil Trail.closed_clear
      have hkey : Flows style encoding (Trail.Opens style)
          (enclosed key.inParens (key.pieces style depth) ++ [.token "]"]) :=
        (flows_enclosed _ (key.flows style depth he.2.2 hkeyNames)).append hclosing
      rw [Expr.pieces, List.append_assoc]
      exact (flows_enclosed _ (base.flows style depth he.2.1 hbase)).append
        (flows_sign_closed (by decide) hkey (Trail.opens_clear style))
  | .call base arguments inParens line, he, hnames => by
      rcases prints_append.mp hnames with ⟨hbase, harguments⟩
      rw [Expr.pieces]
      exact (flows_enclosed _ (base.flows style depth he.2.1 hbase)).append
        (arguments.flows style depth he.2.2 harguments)

theorem Args.flows (style : Style) (depth : Nat) : (arguments : Args) →
    arguments.WellFormed encoding → Prints style arguments.names →
    Flows style encoding Trail.Closed (arguments.pieces style depth)
  | .list arguments, he, hnames => by
      have hrows := exprs_flow style depth arguments he hnames
      have hclosing : Flows style encoding Trail.Closed [.token ")"] :=
        flows_sign_closed (by decide) flows_nil Trail.closed_clear
      rw [Args.pieces]
      exact flows_sign_closed (by decide) ((flows_separated_clear hrows).append hclosing) rfl
  | .table fields, he, hnames => by
      rw [Args.pieces]
      exact (flows_table (fields_flow style (depth + 1) fields he hnames)).closed_of_ready
  | .string literal, he, _ => (flows_string he flows_nil).closed_of_ready

theorem Field.flows (style : Style) (depth : Nat) : (f : Field) → f.WellFormed encoding →
    Prints style f.names → Flows style encoding (Trail.Opens style) (f.pieces style depth)
  | .keyed key value, he, hnames => by
      rcases prints_append.mp hnames with ⟨hkeyNames, hvalueNames⟩
      have hvalue := flows_assigned (flows_enclosed value.inParens
        (value.flows style depth he.2 hvalueNames))
      have hkey : Flows style encoding (Trail.Opens style)
          (enclosed key.inParens (key.pieces style depth) ++ .token "]"
            :: (spacedSign "=" ++ enclosed value.inParens (value.pieces style depth))) :=
        (flows_enclosed _ (key.flows style depth he.1 hkeyNames)).append
          (flows_sign_closed (by decide) hvalue Trail.closed_clear)
      have hall := flows_sign "[" (by decide) (by decide) hkey (Trail.opens_clear style)
      rw [Field.pieces]
      simpa using hall.opens_of_ready
  | .named n value, he, hnames => by
      rcases prints_cons.mp hnames with ⟨hn, hvalueNames⟩
      have hvalue := flows_assigned (flows_enclosed value.inParens
        (value.flows style depth he.2 hvalueNames))
      rw [Field.pieces]
      exact flows_name he.1 hn hvalue
  | .positional value, he, hnames => by
      rw [Field.pieces]
      exact flows_enclosed _ (value.flows style depth he hnames)

theorem Stat.flows (style : Style) (depth : Nat) : (s : Stat) → s.WellFormed encoding →
    Prints style s.names → Flows style encoding (Trail.Opens style) (s.pieces style depth)
  | .label n, hs, hnames => by
      have hclosing : Flows style encoding Trail.Closed [.token "::"] :=
        flows_sign_closed (by decide) flows_nil Trail.closed_clear
      have hname := flows_name hs (prints_cons.mp hnames).1 hclosing
      have hall := flows_sign "::" (by decide) (by decide) hname (Trail.opens_clear style)
      exact hall.opens_of_ready
  | .goto n, hs, hnames =>
      flows_keyword _ (by decide) (flows_gap (flows_name hs (prints_cons.mp hnames).1 flows_nil))
  | .leave, _, _ => flows_keyword _ (by decide) flows_nil
  | .ret [], _, _ => flows_keyword _ (by decide) flows_nil
  | .ret (e :: values), hs, hnames => by
      have hrows := exprs_flow style depth (e :: values) hs hnames
      rw [Stat.pieces]
      exact flows_keyword _ (by decide) (flows_gap (flows_separated (by simp [exprRows]) hrows))
  | .choice (.first condition body :: more), ⟨hshape, hs, hmore⟩, hnames => by
      rcases prints_append.mp hnames with ⟨hfirst, hmoreNames⟩
      rcases prints_append.mp hfirst with ⟨hconditionNames, hbodyNames⟩
      have hcondition := flows_enclosed condition.inParens
        (condition.flows style depth hs.1 hconditionNames)
      have hbody := block_flows style (depth + 1) false body hs.2 hbodyNames
      have hend : Flows style encoding Trail.Closed [.newline depth, .token "end"] :=
        flows_newline _ (flows_keyword _ (by decide) flows_nil)
      have hall := ((flows_clause (show "if" ∈ keywords by decide) hcondition hbody).append
        (clauses_flow style depth more hshape hmore hmoreNames)).append hend
      rw [Stat.pieces, clausePieces, Clause.pieces]
      simpa using hall
  | .choice [], hs, _ => by cases hs.1
  | .choice (.next .. :: _), hs, _ => by cases hs.1
  | .choice (.otherwise _ :: _), hs, _ => by cases hs.1
  | .whileLoop condition body, hs, hnames => by
      rcases prints_append.mp hnames with ⟨hconditionNames, hbodyNames⟩
      have hbody := flows_doBody (block_flows style (depth + 1) false body hs.2 hbodyNames)
      have hcondition := (flows_enclosed condition.inParens
        (condition.flows style depth hs.1 hconditionNames)).append (flows_gap hbody)
      rw [Stat.pieces]
      exact flows_keyword _ (by decide) (flows_gap hcondition)
  | .block body, hs, hnames => by
      rw [Stat.pieces]
      exact flows_doBody (block_flows style (depth + 1) false body hs hnames)
  | .repeatLoop body condition, hs, hnames => by
      rcases prints_append.mp hnames with ⟨hbodyNames, hconditionNames⟩
      rw [Stat.pieces]
      exact (flows_body (by decide) (by decide)
        (block_flows style (depth + 1) false body hs.1 hbodyNames)).append
        (flows_gap (flows_enclosed _ (condition.flows style depth hs.2 hconditionNames)))
  | .locals vars values, ⟨hvars, hvarsWf, hvaluesWf⟩, hnames => by
      rcases prints_append.mp hnames with ⟨hvarNames, hvalueNames⟩
      have hrows : ∀ row ∈ vars.map LocalVar.pieces,
          Flows style encoding (Trail.Opens style) row := by
        intro row hrow
        rcases List.mem_map.mp hrow with ⟨v, hv, rfl⟩
        exact flows_var (hvarsWf v hv) fun hstyle name hname =>
          hvarNames hstyle name (List.mem_flatMap.mpr ⟨v, hv, hname⟩)
      have hvalues : Flows style encoding Trail.Closed (if values.isEmpty then []
          else spacedSign "=" ++ commaSeparated (exprRows style depth values)) := by
        cases values with
        | nil => exact flows_nil
        | cons e rest =>
            exact flows_assigned (flows_separated (by simp [exprRows])
              (exprs_flow style depth (e :: rest) hvaluesWf hvalueNames))
      rw [Stat.pieces]
      exact flows_keyword _ (by decide)
        (flows_gap ((flows_separated (by simpa using hvars) hrows).append hvalues))
  | .assign targets values, ⟨htargets, hvalues, _, htargetsWf, hvaluesWf⟩, hnames => by
      rcases prints_append.mp hnames with ⟨htargetNames, hvalueNames⟩
      have hne : ∀ {es : List Expr}, es ≠ [] → exprRows style depth es ≠ [] := by
        intro es hes
        rwa [exprRows_eq_map, ne_eq, List.map_eq_nil_iff]
      rw [Stat.pieces, List.append_assoc]
      exact (flows_separated (hne htargets)
        (exprs_flow style depth targets htargetsWf htargetNames)).append
        (flows_assigned (flows_separated (hne hvalues)
          (exprs_flow style depth values hvaluesWf hvalueNames)))
  | .call e, hs, hnames => by
      rw [Stat.pieces]
      exact flows_enclosed _ (e.flows style depth hs.2.2 hnames)
  | .function isLocal (some e) parameters body, ⟨hname, hps, hbodyWf⟩, hnames => by
      rcases prints_append.mp hnames with ⟨hfront, hbodyNames⟩
      rcases prints_append.mp hfront with ⟨hnameNames, hpsNames⟩
      have he : e.WellFormed encoding true := by
        rcases functionName_wellFormed hname with ⟨e', heq, he⟩
        cases heq
        exact he
      have hbody := block_flows style (depth + 1) false body hbodyWf hbodyNames
      have hrows := exprs_flow style depth parameters (parameters_wellFormed hps) hpsNames
      have hheader := (flows_enclosed e.inParens
        (e.flows style depth he hnameNames)).append (flows_parameters hrows hbody)
      have hall := flows_keyword "function" (by decide) (flows_gap hheader)
      rw [Stat.pieces, optionPieces]
      cases isLocal with
      | false => simpa using hall
      | true =>
          have hlocal := flows_keyword "local" (by decide) (flows_gap hall)
          simpa using hlocal
  | .function _ none _ _, hs, _ => by cases hs.1
  | .forRange counter first last step body, ⟨hcounter, hfirstWf, hlastWf, hstepWf, hbodyWf⟩,
      hnames => by
      rcases prints_append.mp hnames with ⟨hnames, hbodyNames⟩
      rcases prints_append.mp hnames with ⟨hnames, hstepNames⟩
      rcases prints_append.mp hnames with ⟨hnames, hlastNames⟩
      rcases prints_cons.mp hnames with ⟨hcounterName, hfirstNames⟩
      have hbody := flows_doBody (block_flows style (depth + 1) false body hbodyWf hbodyNames)
      have hstep : Flows style encoding Trail.Closed
          ((if step.isSome then commaPieces else []) ++ optionPieces style depth step) := by
        cases step with
        | none => rw [optionPieces]; exact flows_nil
        | some e =>
            rw [optionPieces]
            exact flows_comma (flows_enclosed _ (e.flows style depth hstepWf hstepNames))
      have hlast := flows_comma (flows_enclosed last.inParens
        (last.flows style depth hlastWf hlastNames))
      have hfirst := flows_assigned (flows_enclosed first.inParens
        (first.flows style depth hfirstWf hfirstNames))
      have hcounterFlows := flows_name hcounter hcounterName
        (((hfirst.append hlast).append hstep).append (flows_gap hbody))
      have hall := flows_keyword "for" (by decide) (flows_gap hcounterFlows)
      rw [Stat.pieces]
      simpa using hall
  | .forEach vars iterators body, ⟨hvars, hvarsWf, hne, hiteratorsWf, hbodyWf⟩, hnames => by
      rcases prints_append.mp hnames with ⟨hnames, hbodyNames⟩
      rcases prints_append.mp hnames with ⟨hvarNames, hiteratorNames⟩
      have hbody := flows_doBody (block_flows style (depth + 1) false body hbodyWf hbodyNames)
      have hiterators : Flows style encoding (Trail.Opens style)
          (commaSeparated (exprRows style depth iterators)) :=
        flows_separated (by rwa [exprRows_eq_map, ne_eq, List.map_eq_nil_iff])
          (exprs_flow style depth iterators hiteratorsWf hiteratorNames)
      have hin : Flows style encoding (Trail.Opens style) (.token "in" :: .gap ::
          (commaSeparated (exprRows style depth iterators) ++ .gap :: .token "do" ::
            closedBody depth "end" body (blockPieces style (depth + 1) false body))) :=
        flows_keyword _ (by decide) (flows_gap (hiterators.append (flows_gap hbody)))
      have hall := flows_keyword "for" (by decide)
        (flows_gap ((flows_names hvars hvarsWf hvarNames).append (flows_gap hin)))
      rw [Stat.pieces]
      simpa using hall

theorem clauses_flow (style : Style) (depth : Nat) : (clauses : List Clause) →
    furtherClauses clauses = true → clausesWellFormed encoding clauses →
    Prints style (clauseNames clauses) →
    Flows style encoding Trail.Closed (clausePieces style depth clauses)
  | [], _, _, _ => by
      rw [clausePieces]
      exact flows_nil
  | [.otherwise body], _, hs, hnames => by
      have hbodyNames : Prints style (blockNames body) := (prints_append.mp hnames).1
      rw [clausePieces, clausePieces, Clause.pieces, List.append_nil]
      exact flows_newline _ (flows_keyword _ (by decide)
        (block_flows style (depth + 1) false body hs.1 hbodyNames))
  | .next condition body :: more, hshape, ⟨hs, hmore⟩, hnames => by
      rcases prints_append.mp hnames with ⟨hfirst, hmoreNames⟩
      rcases prints_append.mp hfirst with ⟨hconditionNames, hbodyNames⟩
      have hcondition := flows_enclosed condition.inParens
        (condition.flows style depth hs.1 hconditionNames)
      have hbody := block_flows style (depth + 1) false body hs.2 hbodyNames
      have hall := (flows_newline depth
        (flows_clause (show "elseif" ∈ keywords by decide) hcondition hbody)).append
        (clauses_flow style depth more hshape hmore hmoreNames)
      rw [clausePieces, Clause.pieces]
      simpa using hall
  | .first .. :: _, hshape, _, _ => by cases hshape
  | .otherwise _ :: _ :: _, hshape, _, _ => by cases hshape

theorem exprs_flow (style : Style) (depth : Nat) : (es : List Expr) →
    exprsWellFormed encoding es → Prints style (exprNames es) →
    ∀ row ∈ exprRows style depth es, Flows style encoding (Trail.Opens style) row
  | [], _, _ => by
      rw [exprRows]
      exact fun _ h => absurd h List.not_mem_nil
  | e :: rest, ⟨he, hrest⟩, hnames => by
      rcases prints_append.mp hnames with ⟨hname, hmore⟩
      rw [exprRows]
      intro row hrow
      rcases List.mem_cons.mp hrow with rfl | hrow
      · exact flows_enclosed _ (e.flows style depth he hname)
      · exact exprs_flow style depth rest hrest hmore row hrow

theorem fields_flow (style : Style) (depth : Nat) : (fs : List Field) →
    fieldsWellFormed encoding fs → Prints style (fieldNames fs) →
    ∀ row ∈ fieldRows style depth fs, Flows style encoding (Trail.Opens style) row
  | [], _, _ => by
      rw [fieldRows]
      exact fun _ h => absurd h List.not_mem_nil
  | f :: rest, ⟨hf, hrest⟩, hnames => by
      rcases prints_append.mp hnames with ⟨hname, hmore⟩
      rw [fieldRows]
      intro row hrow
      rcases List.mem_cons.mp hrow with rfl | hrow
      · exact f.flows style depth hf hname
      · exact fields_flow style depth rest hrest hmore row hrow

theorem block_flows (style : Style) (depth : Nat) (follows : Bool) : (body : List Stat) →
    blockWellFormed encoding body → Prints style (blockNames body) →
    Flows style encoding Trail.Closed (blockPieces style depth follows body)
  | [], _, _ => by
      rw [blockPieces]
      exact flows_nil
  | s :: rest, ⟨hs, _, hrest⟩, hnames => by
      rcases prints_append.mp hnames with ⟨hname, hmore⟩
      have hstatement := s.flows style depth hs hname
      have hall : Flows style encoding (Trail.Opens style)
          ((if follows && s.startsWithParen then [.token ";"] else []) ++ s.pieces style depth) := by
        split
        · have hsemicolon := flows_sign ";" (by decide) (by decide) hstatement
            (Trail.opens_clear style)
          exact hsemicolon.opens_of_ready
        · exact hstatement
      rw [blockPieces]
      exact (flows_newline _ hall).append (block_flows style depth true rest hrest hmore)

end

end Flows

end Lua
end LuaBundle
