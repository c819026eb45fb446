import LuaBundle.Proofs.Bundle.Stops
import LuaBundle.Proofs.Tree.Names

/-!
# Where stops come from

Every stop in a tree stands for something in it, also in a tree with calls of `require` that
cannot be replaced: a call for an expression that is one, a name for one of the names.
-/

namespace LuaBundle
namespace Lua

/-- Whether stops come from expressions and names. -/
structure Drawn (stops : List WalkStop) (nodes : List Expr) (names : List String) : Prop where
  call : ∀ call, .call call ∈ stops → ∃ e ∈ nodes, requireCall? e = some call
  name : ∀ n, .name n ∈ stops → n.text ∈ names

section Drawn

variable {stops front back : List WalkStop} {nodes first second : List Expr}
  {names left right : List String}

theorem drawn_nil (nodes : List Expr) (names : List String) : Drawn [] nodes names := by
  constructor
  case call =>
    intro call hcall
    cases hcall
  case name =>
    intro n hn
    cases hn

theorem Drawn.append (h : Drawn front first left) (h' : Drawn back second right) :
    Drawn (front ++ back) (first ++ second) (left ++ right) := by
  constructor
  case call =>
    intro call hcall
    cases List.mem_append.mp hcall with
    | inl hfront =>
      obtain ⟨e, he, heq⟩ := h.call call hfront
      exact ⟨e, List.mem_append_left _ he, heq⟩
    | inr hback =>
      obtain ⟨e, he, heq⟩ := h'.call call hback
      exact ⟨e, List.mem_append_right _ he, heq⟩
  case name =>
    intro n hn
    cases List.mem_append.mp hn with
    | inl hfront => exact List.mem_append_left _ (h.name n hfront)
    | inr hback => exact List.mem_append_right _ (h'.name n hback)

theorem Drawn.inside (h : Drawn stops nodes names) (e : Expr) : Drawn stops (e :: nodes) names := by
  constructor
  case call =>
    intro call hcall
    obtain ⟨e', he, heq⟩ := h.call call hcall
    exact ⟨e', List.mem_cons_of_mem _ he, heq⟩
  case name => exact h.name

theorem drawn_name (n : Name) (nodes : List Expr) : Drawn [.name n] nodes [n.text] := by
  constructor
  case call => simp
  case name =>
    intro n' hn
    cases List.mem_singleton.mp hn
    exact List.mem_singleton_self _

theorem Drawn.named (h : Drawn stops nodes names) (n : Name) :
    Drawn (.name n :: stops) nodes (n.text :: names) :=
  (drawn_name n []).append h

theorem drawn_names (vars : List Name) : Drawn (vars.map .name) [] (vars.map Name.text) := by
  induction vars with
  | nil => exact drawn_nil _ _
  | cons n rest ih => exact ih.named n

theorem drawn_vars (vars : List LocalVar) :
    Drawn (vars.map fun v => .name v.name) [] (vars.flatMap LocalVar.names) := by
  induction vars with
  | nil => exact drawn_nil _ _
  | cons v rest ih =>
    have attribs := ((drawn_nil [] (v.attrib.map Attribute.name).toList).append ih).named v.name
    simpa [LocalVar.names] using attribs

end Drawn

mutual

theorem Expr.drawn : (e : Expr) → Drawn e.stops e.nodes e.names
  | .name n => drawn_name n _
  | .string _ => drawn_nil _ _
  | .number .. => drawn_nil _ _
  | .boolean _ => drawn_nil _ _
  | .nil => drawn_nil _ _
  | .vararg .. => drawn_nil _ _
  | .function parameters body => ((exprs_drawn parameters).append (block_drawn body)).inside _
  | .table fields => (fields_drawn fields).inside _
  | .binary _ left right => ((Expr.drawn left).append (Expr.drawn right)).inside _
  | .unary _ operand => (Expr.drawn operand).inside _
  | .member base _ n => by
      have members := ((Expr.drawn base).append (drawn_name n [])).inside (.member base ‹_› n)
      simpa [Expr.stops, Expr.nodes, Expr.names] using members
  | .index base key => ((Expr.drawn base).append (Expr.drawn key)).inside _
  | .call base arguments inParens line => by
      cases hcall : requireCall? (.call base arguments inParens line) with
      | some call =>
          rw [Expr.stops, hcall]
          constructor
          case call =>
            intro call' hcall'
            cases List.mem_singleton.mp hcall'
            exact ⟨_, List.mem_cons_self, hcall⟩
          case name => simp
      | none =>
          rw [Expr.stops, hcall]
          exact ((Expr.drawn base).append (Args.drawn arguments)).inside _

theorem Args.drawn : (arguments : Args) → Drawn arguments.stops arguments.nodes arguments.names
  | .list arguments => exprs_drawn arguments
  | .table fields => fields_drawn fields
  | .string _ => drawn_nil _ _

theorem Field.drawn : (f : Field) → Drawn f.stops f.nodes f.names
  | .keyed key value => (Expr.drawn key).append (Expr.drawn value)
  | .named n value => (Expr.drawn value).named n
  | .positional value => Expr.drawn value

theorem Stat.drawn : (s : Stat) → Drawn s.stops s.nodes s.names
  | .label n => drawn_name n _
  | .goto n => drawn_name n _
  | .leave => drawn_nil _ _
  | .ret values => exprs_drawn values
  | .choice clauses => clauses_drawn clauses
  | .whileLoop condition body => (Expr.drawn condition).append (block_drawn body)
  | .block body => block_drawn body
  | .repeatLoop body condition => (block_drawn body).append (Expr.drawn condition)
  | .locals vars values => (drawn_vars vars).append (exprs_drawn values)
  | .assign targets values => (exprs_drawn targets).append (exprs_drawn values)
  | .call e => Expr.drawn e
  | .function _ name parameters body => by
      rw [Stat.stops, Stat.nodes, Stat.names, List.append_assoc, List.append_assoc]
      exact (option_drawn name).append ((exprs_drawn parameters).append (block_drawn body))
  | .forRange counter first last step body => by
      rw [Stat.stops, Stat.nodes, Stat.names]
      simp only [List.append_assoc, List.cons_append]
      exact ((Expr.drawn first).append ((Expr.drawn last).append
        ((option_drawn step).append (block_drawn body)))).named counter
  | .forEach vars iterators body => by
      rw [Stat.stops, Stat.nodes, Stat.names, List.append_assoc]
      exact (drawn_names vars).append ((exprs_drawn iterators).append (block_drawn body))

theorem Clause.drawn : (c : Clause) → Drawn c.stops c.nodes c.names
  | .first condition body => (Expr.drawn condition).append (block_drawn body)
  | .next condition body => (Expr.drawn condition).append (block_drawn body)
  | .otherwise body => block_drawn body

theorem option_drawn : (e : Option Expr) → Drawn (optionStops e) (optionNodes e) (optionNames e)
  | none => drawn_nil _ _
  | some e => Expr.drawn e

theorem exprs_drawn : (es : List Expr) → Drawn (exprStops es) (exprNodes es) (exprNames es)
  | [] => drawn_nil _ _
  | e :: rest => (Expr.drawn e).append (exprs_drawn rest)

theorem fields_drawn : (fs : List Field) → Drawn (fieldStops fs) (fieldNodes fs) (fieldNames fs)
  | [] => drawn_nil _ _
  | f :: rest => (Field.drawn f).append (fields_drawn rest)

theorem block_drawn : (body : List Stat) →
    Drawn (blockStops body) (blockNodes body) (blockNames body)
  | [] => drawn_nil _ _
  | s :: rest => (Stat.drawn s).append (block_drawn rest)

theorem clauses_drawn : (clauses : List Clause) →
    Drawn (clauseStops clauses) (clauseNodes clauses) (clauseNames clauses)
  | [] => drawn_nil _ _
  | c :: rest => (Clause.drawn c).append (clauses_drawn rest)

end

end Lua
end LuaBundle
