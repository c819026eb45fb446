import LuaBundle.Proofs.Grammar.Reads
import LuaBundle.Proofs.Printing.Readable
import LuaBundle.Proofs.Tree.Tours

/-!
# Names as they are written

The names in what a tree is printed as are the names of its elements, in reading order.  So a
walk over the tree is told of its names in the order in which they are written.
-/

namespace LuaBundle
namespace Lua

open Text

/-!
## Names among pieces
-/

instance (kind : Lexeme.Kind) (text : String) : Decidable (Alone kind text) :=
  inferInstanceAs (Decidable (_ = _))

/-- The names among pieces.  A name directly behind `<` is that of an attribute and is left
out; the sign of a comparison has a gap behind it. -/
def writtenNames (bracketed : Bool) : List Piece → List String
  | [] => []
  | .token text :: rest =>
      (if Alone .name text ∧ bracketed = false then [text] else [])
        ++ writtenNames (text == "<") rest
  | .numeral _ :: rest | .gap :: rest | .newline _ :: rest => writtenNames false rest

/-- Pieces in which the names of elements are written, whatever comes behind them. -/
def Writes (ps : List Piece) (xs : List Element) : Prop :=
  ∀ rest, writtenNames false (ps ++ rest) =
    (xs.flatMap Element.names).map Name.text ++ writtenNames false rest

section Pieces

variable {ps qs : List Piece} {xs ys : List Element}

theorem writes_nil : Writes [] [] :=
  fun _ => rfl

theorem Writes.append (h : Writes ps xs) (h' : Writes qs ys) : Writes (ps ++ qs) (xs ++ ys) := by
  intro rest
  rw [List.append_assoc, h, h', List.flatMap_append, List.map_append, List.append_assoc]

theorem Writes.followed (h : Writes ps xs) (h' : Writes qs []) : Writes (ps ++ qs) xs := by
  have hall := h.append h'
  rw [List.append_nil] at hall
  exact hall

theorem Writes.part {p : Part} (h : Writes ps p.elements) : Writes ps [.part p] := by
  intro rest
  rw [h, List.flatMap_singleton, Element.names_part]

theorem writes_gap (h : Writes ps xs) : Writes (.gap :: ps) xs :=
  h

theorem writes_newline (depth : Nat) (h : Writes ps xs) : Writes (.newline depth :: ps) xs :=
  h

theorem ne_bracket {kind : Lexeme.Kind} {text : String} (h : Alone kind text)
    (hkind : kind ≠ .reserved) : (text == "<") = false := by
  refine beq_eq_false_iff_ne.mpr ?_
  rintro rfl
  exact hkind (h.unique (alone_reserved (by decide)))

theorem writes_name {n : Name} (hn : Alone .name n.text) (h : Writes ps xs) :
    Writes (.token n.text :: ps) (.name n :: xs) := by
  intro rest
  rw [List.cons_append, writtenNames, if_pos ⟨hn, rfl⟩, ne_bracket hn (by decide), h,
    List.flatMap_cons, Element.names_name]
  rfl

theorem writes_word (text : String) (ht : text ∈ keywords ∨ text ∈ signs) (hne : text ≠ "<")
    (h : Writes ps xs) : Writes (.token text :: ps) xs := by
  intro rest
  have hname : ¬(Alone .name text ∧ false = false) := fun hname => by
    cases hname.1.unique (alone_reserved ht)
  rw [List.cons_append, writtenNames, if_neg hname, beq_eq_false_iff_ne.mpr hne, h]
  rfl

theorem writes_string {text : String} (ht : Alone .string text) : Writes [.token text] [] := by
  intro rest
  have hname : ¬(Alone .name text ∧ false = false) := fun hname => by
    cases hname.1.unique ht
  rw [List.cons_append, writtenNames, if_neg hname, ne_bracket ht (by decide)]
  rfl

theorem writes_enclosed (parens : Bool) (h : Writes ps xs) : Writes (enclosed parens ps) xs := by
  cases parens with
  | false => exact h
  | true =>
      have hclosing := writes_word ")" (by decide) (by decide) writes_nil
      exact writes_word "(" (by decide) (by decide) (h.followed hclosing)

theorem writes_operator (op : BinaryOp) : Writes (spacedSign op.sign) [] := by
  intro rest
  cases op <;> rfl

theorem writes_equals (h : Writes ps xs) : Writes (spacedSign "=" ++ ps) xs :=
  writes_gap (writes_word "=" (by decide) (by decide) (writes_gap h))

theorem writes_block {body : List Stat} (h : Writes ps (blockElements body)) :
    Writes ps [.part (.block body)] :=
  Writes.part h

theorem writes_closedBody {body : List Stat} (depth : Nat) (closing : String)
    (hclosing : closing ∈ keywords) (h : Writes ps (blockElements body)) :
    Writes (closedBody depth closing body ps) [.part (.block body)] := by
  have hword : Writes [.token closing] [] :=
    writes_word closing (.inl hclosing) (by rintro rfl; exact absurd hclosing (by decide))
      writes_nil
  refine Writes.part ?_
  cases body with
  | nil => exact writes_gap hword
  | cons s rest => exact h.followed (writes_newline depth hword)

end Pieces

/-!
## Rows of pieces
-/

section Rows

variable {α : Type} {items : List α} {row : α → List Piece} {element : α → Element}

theorem writes_commas (h : ∀ a ∈ items, Writes (row a) [element a]) :
    Writes ((items.map row).flatMap (commaPieces ++ ·)) (items.map element) := by
  induction items with
  | nil => exact writes_nil
  | cons a rest ih =>
      have hrow := writes_word "," (by decide) (by decide) (writes_gap (h a List.mem_cons_self))
      exact hrow.append (ih fun b hb => h b (List.mem_cons_of_mem _ hb))

theorem writes_separated (h : ∀ a ∈ items, Writes (row a) [element a]) :
    Writes (commaSeparated (items.map row)) (items.map element) := by
  cases items with
  | nil => exact writes_nil
  | cons a rest =>
      rw [List.map_cons, commaSeparated_cons]
      exact (h a List.mem_cons_self).append
        (writes_commas fun b hb => h b (List.mem_cons_of_mem _ hb))

theorem writes_spread (depth : Nat) (h : ∀ a ∈ items, Writes (row a) [element a]) :
    Writes ((items.map row).flatMap fun row => .newline depth :: row ++ [.token ","])
      (items.map element) := by
  have hcomma := writes_word "," (by decide) (by decide) writes_nil
  induction items with
  | nil => exact writes_nil
  | cons a rest ih =>
      have hrow := writes_newline depth ((h a List.mem_cons_self).followed hcomma)
      exact hrow.append (ih fun b hb => h b (List.mem_cons_of_mem _ hb))

theorem writes_tight (h : ∀ a ∈ items, Writes (row a) [element a]) :
    Writes ([Piece.token ","].intercalate (items.map row)) (items.map element) := by
  induction items with
  | nil => exact writes_nil
  | cons a rest ih =>
      have hrow := h a List.mem_cons_self
      have hrest := ih fun b hb => h b (List.mem_cons_of_mem _ hb)
      cases rest with
      | nil => simpa [List.intercalate] using hrow
      | cons b rest =>
          rw [List.map_cons, List.map_cons, List.intercalate_cons_cons, List.append_assoc]
          exact hrow.append (writes_word "," (by decide) (by decide) hrest)

theorem writes_table (style : Style) (depth : Nat) (h : ∀ a ∈ items, Writes (row a) [element a]) :
    Writes (tablePieces style depth (items.map row)) (items.map element) := by
  have hclosing : Writes [.token "\x7d"] [] :=
    writes_word _ (by decide) (by decide) writes_nil
  cases items with
  | nil => cases style <;> exact writes_word _ (by decide) (by decide) hclosing
  | cons a rest =>
      cases style with
      | pretty =>
          exact writes_word _ (by decide) (by decide)
            ((writes_spread (depth + 1) h).followed (writes_newline depth hclosing))
      | compact => exact writes_word _ (by decide) (by decide) ((writes_tight h).followed hclosing)

end Rows

/-!
## Declared names
-/

section Names

variable {encoding : Encoding}

theorem writes_names {vars : List Name} (h : ∀ n ∈ vars, Spelled encoding .name n.text) :
    Writes (namePieces vars) (nameElements vars) :=
  writes_separated fun n hn => writes_name (h n hn).alone writes_nil

theorem writes_var {v : LocalVar} (h : v.WellFormed encoding) :
    Writes v.pieces [.name v.name] := by
  rcases v with ⟨n, attrib⟩
  cases attrib with
  | none => exact writes_name h.1.alone writes_nil
  | some a =>
      have hattrib : Writes [.token "<", .token a.name, .token ">"] [] := by
        intro rest
        have hopening : ¬Alone .name "<" := by decide
        have hclosing : ¬Alone .name ">" := by decide
        simp [writtenNames, hopening, hclosing]
      exact writes_name h.1.alone (writes_gap hattrib)

theorem writes_vars {vars : List LocalVar} (h : ∀ v ∈ vars, v.WellFormed encoding) :
    Writes (commaSeparated (vars.map LocalVar.pieces))
      (nameElements (vars.map LocalVar.name)) := by
  rw [nameElements, List.map_map]
  exact writes_separated fun v hv => writes_var (h v hv)

end Names

/-!
## Trees
-/

section Trees

variable {encoding : Encoding}

theorem writes_exprs {style : Style} {depth : Nat} {es : List Expr}
    (h : ∀ e ∈ es, Writes (enclosed e.inParens (e.pieces style depth)) [.part (.expr e)]) :
    Writes (commaSeparated (exprRows style depth es)) (exprElements es) := by
  rw [exprRows_eq_map]
  exact writes_separated h

theorem writes_fields {style : Style} {depth : Nat} {fs : List Field}
    (h : ∀ f ∈ fs, Writes (f.pieces style (depth + 1)) [.part (.field f)]) :
    Writes (tablePieces style depth (fieldRows style (depth + 1) fs)) (fieldElements fs) := by
  rw [fieldRows_eq_map]
  exact writes_table style depth h

theorem writes_function {style : Style} {depth : Nat} {parameters : List Expr} {body : List Stat}
    {ps : List Piece}
    (hparameters : ∀ e ∈ parameters,
      Writes (enclosed e.inParens (e.pieces style depth)) [.part (.expr e)])
    (hbody : Writes ps (blockElements body)) :
    Writes (.token "(" :: (commaSeparated (exprRows style depth parameters) ++
      .token ")" :: closedBody depth "end" body ps))
      (exprElements parameters ++ [.part (.block body)]) :=
  writes_word "(" (by decide) (by decide) ((writes_exprs hparameters).append
    (writes_word ")" (by decide) (by decide) (writes_closedBody depth "end" (by decide) hbody)))

mutual

theorem Expr.writes (style : Style) (depth : Nat) {callee : Bool} : (e : Expr) →
    e.WellFormed encoding callee → Writes (e.pieces style depth) [.part (.expr e)]
  | .name n, he => by
      rw [Expr.pieces]
      exact Writes.part (writes_name he.alone writes_nil)
  | .string literal, he => by
      rw [Expr.pieces]
      exact Writes.part (writes_string he.alone)
  | .number numeral line, _ => Writes.part fun _ => rfl
  | .boolean true, _ => Writes.part (writes_word _ (by decide) (by decide) writes_nil)
  | .boolean false, _ => Writes.part (writes_word _ (by decide) (by decide) writes_nil)
  | .nil, _ => Writes.part (writes_word _ (by decide) (by decide) writes_nil)
  | .vararg inParens line, _ => Writes.part (writes_word _ (by decide) (by decide) writes_nil)
  | .function parameters body, he => by
      have hparameters := exprs_write style depth parameters (parameters_wellFormed he.1)
      have hbody := block_writes style (depth + 1) false body he.2
      rw [Expr.pieces]
      exact Writes.part (writes_word _ (by decide) (by decide) (writes_function hparameters hbody))
  | .table fields, he => by
      rw [Expr.pieces]
      exact Writes.part (writes_fields (fields_write style (depth + 1) fields he))
  | .binary op left right, he => by
      rw [Expr.pieces]
      exact Writes.part (((writes_enclosed _ (left.writes style depth he.1)).followed
        (writes_operator op)).append (writes_enclosed _ (right.writes style depth he.2)))
  | .unary op operand, he => by
      have hoperand := writes_enclosed (operand.inParens || operand.needsParens .operand)
        (operand.writes style depth he)
      rw [Expr.pieces]
      cases op <;> exact Writes.part (writes_word _ (by decide) (by decide) hoperand)
  | .member base indexer n, he => by
      have hbase := writes_enclosed (base.inParens || !base.isPrefixed)
        (base.writes style depth he.2.2.1)
      have hn := writes_name he.2.2.2.alone writes_nil
      rw [Expr.pieces]
      cases indexer <;>
        exact Writes.part (hbase.append (writes_word _ (by decide) (by decide) hn))
  | .index base key, he => by
      have hbase := writes_enclosed (base.inParens || !base.isPrefixed)
        (base.writes style depth he.2.1)
      have hclosing := writes_word "]" (by decide) (by decide) writes_nil
      have hkey := (writes_enclosed key.inParens (key.writes style depth he.2.2)).followed hclosing
      rw [Expr.pieces, List.append_assoc]
      exact Writes.part (hbase.append (writes_word "[" (by decide) (by decide) hkey))
  | .call base arguments inParens line, he => by
      rw [Expr.pieces]
      exact Writes.part ((writes_enclosed _ (base.writes style depth he.2.1)).append
        (arguments.writes style depth he.2.2))

theorem Args.writes (style : Style) (depth : Nat) : (arguments : Args) →
    arguments.WellFormed encoding →
    Writes (arguments.pieces style depth) [.part (.args arguments)]
  | .list arguments, he => by
      have hclosing := writes_word ")" (by decide) (by decide) writes_nil
      have hrows := writes_exprs (exprs_write style depth arguments he)
      rw [Args.pieces]
      exact Writes.part (writes_word _ (by decide) (by decide) (hrows.followed hclosing))
  | .table fields, he => by
      rw [Args.pieces]
      exact Writes.part (writes_fields (fields_write style (depth + 1) fields he))
  | .string literal, he => by
      rw [Args.pieces]
      exact Writes.part (writes_string he.alone)

theorem Field.writes (style : Style) (depth : Nat) : (f : Field) → f.WellFormed encoding →
    Writes (f.pieces style depth) [.part (.field f)]
  | .keyed key value, he => by
      have hkey := writes_enclosed key.inParens (key.writes style depth he.1)
      have hvalue := writes_equals (writes_enclosed value.inParens (value.writes style depth he.2))
      rw [Field.pieces, List.append_assoc]
      exact Writes.part (writes_word "[" (by decide) (by decide)
        (hkey.append (writes_word "]" (by decide) (by decide) hvalue)))
  | .named n value, he => by
      have hvalue := writes_equals (writes_enclosed value.inParens (value.writes style depth he.2))
      rw [Field.pieces]
      exact Writes.part (writes_name he.1.alone hvalue)
  | .positional value, he => by
      rw [Field.pieces]
      exact Writes.part (writes_enclosed _ (value.writes style depth he))

theorem Stat.writes (style : Style) (depth : Nat) : (s : Stat) → s.WellFormed encoding →
    Writes (s.pieces style depth) [.part (.stat s)]
  | .label n, hs => by
      have hclosing := writes_word "::" (by decide) (by decide) writes_nil
      rw [Stat.pieces]
      exact Writes.part (writes_word "::" (by decide) (by decide) (writes_name hs.alone hclosing))
  | .goto n, hs => by
      rw [Stat.pieces]
      exact Writes.part (writes_word "goto" (by decide) (by decide)
        (writes_gap (writes_name hs.alone writes_nil)))
  | .leave, _ => Writes.part (writes_word "break" (by decide) (by decide) writes_nil)
  | .ret [], _ => Writes.part (writes_word "return" (by decide) (by decide) writes_nil)
  | .ret (e :: values), hs => by
      rw [Stat.pieces]
      exact Writes.part (writes_word "return" (by decide) (by decide)
        (writes_gap (writes_exprs (exprs_write style depth (e :: values) hs))))
  | .choice clauses, hs => by
      have hclosing := writes_word "end" (by decide) (by decide) writes_nil
      rw [Stat.pieces]
      exact Writes.part ((clauses_write style depth clauses hs.2).followed
        (writes_newline depth hclosing))
  | .whileLoop condition body, hs => by
      have hcondition := writes_enclosed condition.inParens (condition.writes style depth hs.1)
      have hbody := writes_closedBody depth "end" (by decide)
        (block_writes style (depth + 1) false body hs.2)
      rw [Stat.pieces]
      exact Writes.part (writes_word "while" (by decide) (by decide) (writes_gap
        (hcondition.append (writes_gap (writes_word "do" (by decide) (by decide) hbody)))))
  | .block body, hs => by
      rw [Stat.pieces]
      exact Writes.part (writes_word "do" (by decide) (by decide)
        (writes_closedBody depth "end" (by decide) (block_writes style (depth + 1) false body hs)))
  | .repeatLoop body condition, hs => by
      have hbody := writes_closedBody depth "until" (by decide)
        (block_writes style (depth + 1) false body hs.1)
      have hcondition := writes_enclosed condition.inParens (condition.writes style depth hs.2)
      rw [Stat.pieces]
      exact Writes.part (writes_word "repeat" (by decide) (by decide)
        (hbody.append (writes_gap hcondition)))
  | .locals vars values, hs => by
      have hvars := writes_vars hs.2.1
      rw [Stat.pieces]
      refine Writes.part (writes_word "local" (by decide) (by decide)
        (writes_gap (hvars.append ?_)))
      cases values with
      | nil => exact writes_nil
      | cons e rest =>
          exact writes_equals (writes_exprs (exprs_write style depth (e :: rest) hs.2.2))
  | .assign targets values, hs => by
      have htargets := writes_exprs (exprs_write style depth targets hs.2.2.2.1)
      have hvalues := writes_exprs (exprs_write style depth values hs.2.2.2.2)
      rw [Stat.pieces, List.append_assoc]
      exact Writes.part (htargets.append (writes_equals hvalues))
  | .call e, hs => by
      rw [Stat.pieces]
      exact Writes.part (writes_enclosed _ (e.writes style depth hs.2.2))
  | .function _ none _ _, hs => by cases hs.1
  | .function isLocal (some e) parameters body, hs => by
      rcases functionName_wellFormed hs.1 with ⟨name, hsome, he⟩
      cases hsome
      have hname := writes_enclosed e.inParens (e.writes style depth he)
      have hrest := writes_function
        (exprs_write style depth parameters (parameters_wellFormed hs.2.1))
        (block_writes style (depth + 1) false body hs.2.2)
      have hall := writes_word "function" (by decide) (by decide)
        (writes_gap (hname.append hrest))
      rw [Stat.pieces, List.append_assoc, List.append_assoc]
      cases isLocal with
      | false => exact Writes.part hall
      | true => exact Writes.part (writes_word "local" (by decide) (by decide) (writes_gap hall))
  | .forRange counter first last step body, hs => by
      have hbody := writes_word "do" (by decide) (by decide)
        (writes_closedBody depth "end" (by decide)
          (block_writes style (depth + 1) false body hs.2.2.2.2))
      have hfirst := writes_enclosed first.inParens (first.writes style depth hs.2.1)
      have hlast := writes_enclosed last.inParens (last.writes style depth hs.2.2.1)
      have hstep := (option_writes style depth step hs.2.2.2.1).append (writes_gap hbody)
      rw [List.append_assoc] at hstep
      have hvalues := writes_equals (hfirst.append (writes_word "," (by decide) (by decide)
        (writes_gap (hlast.append hstep))))
      rw [Stat.pieces]
      simp only [List.append_assoc, List.cons_append]
      exact Writes.part (writes_word "for" (by decide) (by decide)
        (writes_gap (writes_name hs.1.alone hvalues)))
  | .forEach vars iterators body, hs => by
      have hbody := writes_word "do" (by decide) (by decide)
        (writes_closedBody depth "end" (by decide)
          (block_writes style (depth + 1) false body hs.2.2.2.2))
      have hvars := writes_names hs.2.1
      have hiterators := writes_exprs (exprs_write style depth iterators hs.2.2.2.1)
      rw [Stat.pieces]
      simp only [List.append_assoc, List.cons_append]
      exact Writes.part (writes_word "for" (by decide) (by decide) (writes_gap (hvars.append
        (writes_gap (writes_word "in" (by decide) (by decide)
          (writes_gap (hiterators.append (writes_gap hbody))))))))

theorem option_writes (style : Style) (depth : Nat) : (o : Option Expr) →
    optionWellFormed encoding o →
    Writes ((if o.isSome then commaPieces else []) ++ optionPieces style depth o)
      (exprElements o.toList)
  | none, _ => writes_nil
  | some e, he => writes_word "," (by decide) (by decide)
      (writes_gap (writes_enclosed _ (e.writes style depth he)))

theorem clauses_write (style : Style) (depth : Nat) : (clauses : List Clause) →
    clausesWellFormed encoding clauses →
    Writes (clausePieces style depth clauses) (clauseElements clauses)
  | [], _ => writes_nil
  | c :: rest, h => by
      rw [clausePieces]
      exact (c.writes style depth h.1).append (clauses_write style depth rest h.2)

theorem exprs_write (style : Style) (depth : Nat) : (es : List Expr) →
    exprsWellFormed encoding es → ∀ e ∈ es,
    Writes (enclosed e.inParens (e.pieces style depth)) [.part (.expr e)]
  | [], _ => nofun
  | e :: rest, h =>
      List.forall_mem_cons.mpr
        ⟨writes_enclosed _ (e.writes style depth h.1), exprs_write style depth rest h.2⟩

theorem fields_write (style : Style) (depth : Nat) : (fs : List Field) →
    fieldsWellFormed encoding fs → ∀ f ∈ fs, Writes (f.pieces style depth) [.part (.field f)]
  | [], _ => nofun
  | f :: rest, h =>
      List.forall_mem_cons.mpr ⟨f.writes style depth h.1, fields_write style depth rest h.2⟩

theorem Clause.writes (style : Style) (depth : Nat) : (c : Clause) → c.WellFormed encoding →
    Writes (c.pieces style depth) [.part (.clause c)]
  | .first condition body, hc => by
      have hcondition := writes_enclosed condition.inParens (condition.writes style depth hc.1)
      have hbody := writes_block (block_writes style (depth + 1) false body hc.2)
      rw [Clause.pieces]
      exact Writes.part (writes_word "if" (by decide) (by decide) (writes_gap
        (hcondition.append (writes_gap (writes_word "then" (by decide) (by decide) hbody)))))
  | .next condition body, hc => by
      have hcondition := writes_enclosed condition.inParens (condition.writes style depth hc.1)
      have hbody := writes_block (block_writes style (depth + 1) false body hc.2)
      rw [Clause.pieces]
      exact Writes.part (writes_newline depth (writes_word "elseif" (by decide) (by decide)
        (writes_gap (hcondition.append
          (writes_gap (writes_word "then" (by decide) (by decide) hbody))))))
  | .otherwise body, hc => by
      have hbody := writes_block (block_writes style (depth + 1) false body hc)
      rw [Clause.pieces]
      exact Writes.part (writes_newline depth (writes_word "else" (by decide) (by decide) hbody))

/-- The statements of a block are written with the names of their elements. -/
theorem block_writes (style : Style) (depth : Nat) (follows : Bool) : (body : List Stat) →
    blockWellFormed encoding body →
    Writes (blockPieces style depth follows body) (blockElements body)
  | [], _ => writes_nil
  | s :: rest, h => by
      have hs := (s.writes style depth h.1).append (block_writes style depth true rest h.2.2)
      rw [blockPieces, List.append_assoc]
      refine writes_newline depth ?_
      split
      · exact writes_word ";" (by decide) (by decide) hs
      · exact hs

end

end Trees

/-!
## Walks and writing
-/

theorem wellFormed_of_parse {encoding : Encoding} {source : List Char} {c : Chunk}
    (h : parse encoding source = .ok c) : blockWellFormed .utf8 c.body := by
  rcases parse_ok h with ⟨lexemes, body, hlex, hprogram, _, hbody, _⟩
  have hsource : source.all (admits .utf8) = true := List.all_eq_true.mpr fun _ _ => rfl
  have hplain := plain_of_program (genuine_of_lex hsource hlex) hprogram
  rw [hbody, ← block_wellFormed_stripped, block_stripped_resolve, block_wellFormed_stripped]
  exact hplain.1

/-- A walk that only records, over a script that parses: it leaves the tree as it is, the names
that it is told of are the ones that are written when the tree is printed in either style,
without those of attributes, and it is told of every element of the tree just once, in the
order of their places. -/
theorem recording_walk {encoding : Encoding} {source : List Char} {c : Chunk}
    (h : parse encoding source = .ok c) :
    let walked := Itinerary.run {} c.body
    let root := Element.part (.block c.body)
    walked.1 = c.body ∧
      (∀ style, (walked.2.events.reverse.filterMap Event.name?).map Name.text =
        writtenNames false (blockPieces style 0 false c.body)) ∧
      ∃ places : List (List Nat), places.Pairwise (· < ·) ∧
        (∀ place, place ∈ places ↔
          place ≠ [] ∧ ∃ x, root.at? place = some x ∧ x.event?.isSome) ∧
        walked.2.events.reverse.map some =
          places.map fun place => (root.at? place).bind Element.event? := by
  intro walked root
  rcases run_recording c.body with ⟨hsame, htold⟩
  have hnames := block_names c.body
  rw [← htold, Element.names_part] at hnames
  refine ⟨hsame, fun style => ?_, ?_⟩
  · have hwritten := block_writes style 0 false c.body (wellFormed_of_parse h) []
    rw [List.append_nil, writtenNames, List.append_nil] at hwritten
    rw [hwritten]
    exact congrArg (List.map Name.text) hnames.symm
  · rw [show walked.2.events.reverse = _ from htold]
    exact root.exists_event_places

/-- A script with an attribute, comparisons and a condition behind its body. -/
def attributed : List Char :=
  "local a <const> = b < c\nrepeat t.x = a > b until t[a]\n".toList

theorem attributed_walk :
    ∃ c, parse .utf8 attributed = .ok c ∧
      writtenNames false (blockPieces .compact 0 false c.body) =
        ["a", "b", "c", "t", "x", "a", "b", "t", "a"] ∧
      (Itinerary.run {} c.body).1 = c.body ∧
      (∀ style, ((Itinerary.run {} c.body).2.events.reverse.filterMap Event.name?).map Name.text =
        writtenNames false (blockPieces style 0 false c.body)) ∧
      ∃ places : List (List Nat), places.Pairwise (· < ·) ∧
        (∀ place, place ∈ places ↔
          place ≠ [] ∧ ∃ x, (Element.part (.block c.body)).at? place = some x ∧
            x.event?.isSome) ∧
        (Itinerary.run {} c.body).2.events.reverse.map some =
          places.map fun place =>
            ((Element.part (.block c.body)).at? place).bind Element.event? := by
  have hparse : ((parse .utf8 attributed).toOption.any fun c =>
      writtenNames false (blockPieces .compact 0 false c.body) ==
        ["a", "b", "c", "t", "x", "a", "b", "t", "a"]) = true := by
    decide +kernel
  rcases exists_ok_of_any hparse with ⟨c, hc, hnames⟩
  exact ⟨c, hc, beq_iff_eq.mp hnames, recording_walk hc⟩

end Lua
end LuaBundle
