import LuaBundle.Bundle.Discovery

/-!
# The stops of a walk

A walk over a script stops at its calls of `require` and at its names.  The stops of a tree
are listed here in reading order, apart from the walk, and so are all its expressions and the
tree that has every call replaced by number.  A walk of an explorer is then the same as
passing the stops one after the other and replacing the calls by what they gave.
-/

namespace LuaBundle
namespace Lua

/-- Where a walk stops: at a call of `require`, which it does not enter, or at a name. -/
inductive WalkStop where
  | call (call : RequireCall)
  | name (n : Name)

/-!
## Stops in reading order

A call of `require` is a stop as a whole, and so is every name outside such calls.
-/

mutual

def Expr.stops : Expr → List WalkStop
  | .name n => [.name n]
  | .string _ | .number .. | .boolean _ | .nil | .vararg .. => []
  | .function parameters body => exprStops parameters ++ blockStops body
  | .table fields => fieldStops fields
  | .binary _ left right => left.stops ++ right.stops
  | .unary _ operand => operand.stops
  | .member base _ n => base.stops ++ [.name n]
  | .index base key => base.stops ++ key.stops
  | .call base arguments inParens line =>
      match requireCall? (.call base arguments inParens line) with
      | some call => [.call call]
      | none => base.stops ++ arguments.stops

def Args.stops : Args → List WalkStop
  | .list arguments => exprStops arguments
  | .table fields => fieldStops fields
  | .string _ => []

def Field.stops : Field → List WalkStop
  | .keyed key value => key.stops ++ value.stops
  | .named n value => .name n :: value.stops
  | .positional value => value.stops

def Stat.stops : Stat → List WalkStop
  | .label n => [.name n]
  | .goto n => [.name n]
  | .leave => []
  | .ret values => exprStops values
  | .choice clauses => clauseStops clauses
  | .whileLoop condition body => condition.stops ++ blockStops body
  | .block body => blockStops body
  | .repeatLoop body condition => blockStops body ++ condition.stops
  | .locals vars values => vars.map (fun v => .name v.name) ++ exprStops values
  | .assign targets values => exprStops targets ++ exprStops values
  | .call e => e.stops
  | .function _ name parameters body =>
      optionStops name ++ (exprStops parameters ++ blockStops body)
  | .forRange counter first last step body =>
      .name counter ::
        (first.stops ++ (last.stops ++ (optionStops step ++ blockStops body)))
  | .forEach vars iterators body =>
      vars.map WalkStop.name ++ (exprStops iterators ++ blockStops body)

def Clause.stops : Clause → List WalkStop
  | .first condition body => condition.stops ++ blockStops body
  | .next condition body => condition.stops ++ blockStops body
  | .otherwise body => blockStops body

def optionStops : Option Expr → List WalkStop
  | none => []
  | some e => e.stops

def exprStops : List Expr → List WalkStop
  | [] => []
  | e :: rest => e.stops ++ exprStops rest

def fieldStops : List Field → List WalkStop
  | [] => []
  | f :: rest => f.stops ++ fieldStops rest

def blockStops : List Stat → List WalkStop
  | [] => []
  | s :: rest => s.stops ++ blockStops rest

def clauseStops : List Clause → List WalkStop
  | [] => []
  | c :: rest => c.stops ++ clauseStops rest

end

/-!
## Calls replaced by number

The tree with its calls replaced, when the numbers of modules are known beforehand.
-/

mutual

/-- An expression with every call of `require` replaced, wherever it stands. -/
def Expr.rewrite (number : String → Nat) : Expr → Expr
  | .name n => .name n
  | .string literal => .string literal
  | .number numeral line => .number numeral line
  | .boolean value => .boolean value
  | .nil => .nil
  | .vararg inParens line => .vararg inParens line
  | .function parameters body =>
      .function (rewriteExprs number parameters) (rewriteBlock number body)
  | .table fields => .table (rewriteFields number fields)
  | .binary op left right => .binary op (left.rewrite number) (right.rewrite number)
  | .unary op operand => .unary op (operand.rewrite number)
  | .member base indexer n => .member (base.rewrite number) indexer n
  | .index base key => .index (base.rewrite number) (key.rewrite number)
  | .call base arguments inParens line =>
      match requireCall? (.call base arguments inParens line) with
      | some (.module name _) =>
          replacement (.call base arguments inParens line) (number name)
      | _ => .call (base.rewrite number) (arguments.rewrite number) inParens line

def Args.rewrite (number : String → Nat) : Args → Args
  | .list arguments => .list (rewriteExprs number arguments)
  | .table fields => .table (rewriteFields number fields)
  | .string literal => .string literal

def Field.rewrite (number : String → Nat) : Field → Field
  | .keyed key value => .keyed (key.rewrite number) (value.rewrite number)
  | .named n value => .named n (value.rewrite number)
  | .positional value => .positional (value.rewrite number)

def Stat.rewrite (number : String → Nat) : Stat → Stat
  | .label n => .label n
  | .goto n => .goto n
  | .leave => .leave
  | .ret values => .ret (rewriteExprs number values)
  | .choice clauses => .choice (rewriteClauses number clauses)
  | .whileLoop condition body => .whileLoop (condition.rewrite number) (rewriteBlock number body)
  | .block body => .block (rewriteBlock number body)
  | .repeatLoop body condition =>
      .repeatLoop (rewriteBlock number body) (condition.rewrite number)
  | .locals vars values => .locals vars (rewriteExprs number values)
  | .assign targets values =>
      .assign (rewriteExprs number targets) (rewriteExprs number values)
  | .call e => .call (e.rewrite number)
  | .function isLocal name parameters body =>
      .function isLocal (rewriteOption number name) (rewriteExprs number parameters)
        (rewriteBlock number body)
  | .forRange counter first last step body =>
      .forRange counter (first.rewrite number) (last.rewrite number)
        (rewriteOption number step) (rewriteBlock number body)
  | .forEach vars iterators body =>
      .forEach vars (rewriteExprs number iterators) (rewriteBlock number body)

def Clause.rewrite (number : String → Nat) : Clause → Clause
  | .first condition body => .first (condition.rewrite number) (rewriteBlock number body)
  | .next condition body => .next (condition.rewrite number) (rewriteBlock number body)
  | .otherwise body => .otherwise (rewriteBlock number body)

def rewriteOption (number : String → Nat) : Option Expr → Option Expr
  | none => none
  | some e => some (e.rewrite number)

def rewriteExprs (number : String → Nat) : List Expr → List Expr
  | [] => []
  | e :: rest => e.rewrite number :: rewriteExprs number rest

def rewriteFields (number : String → Nat) : List Field → List Field
  | [] => []
  | f :: rest => f.rewrite number :: rewriteFields number rest

def rewriteBlock (number : String → Nat) : List Stat → List Stat
  | [] => []
  | s :: rest => s.rewrite number :: rewriteBlock number rest

def rewriteClauses (number : String → Nat) : List Clause → List Clause
  | [] => []
  | c :: rest => c.rewrite number :: rewriteClauses number rest

end

/-!
## All expressions

Parents come before their children.
-/

mutual

def Expr.nodes : Expr → List Expr
  | .name n => [.name n]
  | .string literal => [.string literal]
  | .number numeral line => [.number numeral line]
  | .boolean value => [.boolean value]
  | .nil => [.nil]
  | .vararg inParens line => [.vararg inParens line]
  | .function parameters body =>
      .function parameters body :: exprNodes parameters ++ blockNodes body
  | .table fields => .table fields :: fieldNodes fields
  | .binary op left right => .binary op left right :: left.nodes ++ right.nodes
  | .unary op operand => .unary op operand :: operand.nodes
  | .member base indexer n => .member base indexer n :: base.nodes
  | .index base key => .index base key :: base.nodes ++ key.nodes
  | .call base arguments inParens line =>
      .call base arguments inParens line :: base.nodes ++ arguments.nodes

def Args.nodes : Args → List Expr
  | .list arguments => exprNodes arguments
  | .table fields => fieldNodes fields
  | .string _ => []

def Field.nodes : Field → List Expr
  | .keyed key value => key.nodes ++ value.nodes
  | .named _ value => value.nodes
  | .positional value => value.nodes

def Stat.nodes : Stat → List Expr
  | .label _ | .goto _ | .leave => []
  | .ret values => exprNodes values
  | .choice clauses => clauseNodes clauses
  | .whileLoop condition body => condition.nodes ++ blockNodes body
  | .block body => blockNodes body
  | .repeatLoop body condition => blockNodes body ++ condition.nodes
  | .locals _ values => exprNodes values
  | .assign targets values => exprNodes targets ++ exprNodes values
  | .call e => e.nodes
  | .function _ name parameters body =>
      optionNodes name ++ exprNodes parameters ++ blockNodes body
  | .forRange _ first last step body =>
      first.nodes ++ last.nodes ++ optionNodes step ++ blockNodes body
  | .forEach _ iterators body => exprNodes iterators ++ blockNodes body

def Clause.nodes : Clause → List Expr
  | .first condition body => condition.nodes ++ blockNodes body
  | .next condition body => condition.nodes ++ blockNodes body
  | .otherwise body => blockNodes body

def optionNodes : Option Expr → List Expr
  | none => []
  | some e => e.nodes

def exprNodes : List Expr → List Expr
  | [] => []
  | e :: rest => e.nodes ++ exprNodes rest

def fieldNodes : List Field → List Expr
  | [] => []
  | f :: rest => f.nodes ++ fieldNodes rest

def blockNodes : List Stat → List Expr
  | [] => []
  | s :: rest => s.nodes ++ blockNodes rest

def clauseNodes : List Clause → List Expr
  | [] => []
  | c :: rest => c.nodes ++ clauseNodes rest

end

end Lua

open Lua

/-!
## Passing the stops

A walk over a tree passes its stops in order, and the answers it gets make the new tree.
-/

/-- What a stop gives to the rewriting: the number of the module it asks for. -/
abbrev Answers := List (String × Nat)

def Explorer.pass (x : Explorer) (explore : Location → Discover Chunk) (script : Location) :
    WalkStop → Discover Answers
  | .call (.unsupported line) => fault (.unsupportedRequire script.path line)
  | .call (.module name line) => do
      let id ← x.require explore script name line
      return [(name, id)]
  | .name n =>
      if reservedStart.toList.isPrefixOf n.text.toList then
        fault (.reservedName script.path n.text)
      else
        return []

def Explorer.passAll (x : Explorer) (explore : Location → Discover Chunk)
    (script : Location) : List WalkStop → Discover Answers
  | [] => return []
  | stop :: rest => do
      let answers ← x.pass explore script stop
      return answers ++ (← x.passAll explore script rest)

/-- Whether numbers for module names agree with what was answered. -/
def Answers.Agree (answers : Answers) (number : String → Nat) : Prop :=
  ∀ answer ∈ answers, number answer.1 = answer.2

theorem Answers.agree_append {front back : Answers} {number : String → Nat} :
    Answers.Agree (front ++ back) number ↔ front.Agree number ∧ back.Agree number := by
  constructor
  · intro h
    exact ⟨fun a ha => h a (by simp [ha]), fun a ha => h a (by simp [ha])⟩
  · rintro ⟨hfront, hback⟩ a ha
    rcases List.mem_append.mp ha with ha | ha
    · exact hfront a ha
    · exact hback a ha

section Follows

variable (x : Explorer) (explore : Location → Discover Chunk) (script : Location)

/-- A step follows stops when it stops at the first fault among them and otherwise gives what
the answers make of a value. -/
structure Follows (step : Discover α) (stops : List WalkStop) (rebuilt : (String → Nat) → α) :
    Prop where
  run : ∀ d, match x.passAll explore script stops d with
    | .error e => step d = .error e
    | .ok (answers, d') =>
        ∃ a, step d = .ok (a, d') ∧ ∀ number, answers.Agree number → a = rebuilt number

theorem discover_pure (a : α) (d : Discovery) : (pure a : Discover α) d = .ok (a, d) :=
  rfl

theorem passAll_append (front back : List WalkStop) (d : Discovery) :
    x.passAll explore script (front ++ back) d =
      match x.passAll explore script front d with
      | .error e => .error e
      | .ok (answers, d') =>
          match x.passAll explore script back d' with
          | .error e => .error e
          | .ok (more, d'') => .ok (answers ++ more, d'') := by
  induction front generalizing d with
  | nil =>
      cases hback : x.passAll explore script back d <;>
        simp [Explorer.passAll, discover_pure, hback]
  | cons stop front ih =>
      simp only [List.cons_append, Explorer.passAll, bind, StateT.bind, Except.bind,
        discover_pure]
      cases x.pass explore script stop d with
      | error e => rfl
      | ok passed =>
          rcases passed with ⟨answers, d'⟩
          simp only [ih]
          cases x.passAll explore script front d' with
          | error e => rfl
          | ok passed =>
              rcases passed with ⟨more, d''⟩
              simp only
              cases x.passAll explore script back d'' with
              | error e => rfl
              | ok passed => simp

theorem follows_pure (a : α) : Follows x explore script (pure a) [] fun _ => a := by
  constructor
  intro d
  exact ⟨a, rfl, fun _ _ => rfl⟩

variable {x explore script}

theorem Follows.bind {step : Discover α} {next : α → Discover β} {front back : List WalkStop}
    {first : (String → Nat) → α} {second : α → (String → Nat) → β}
    (hstep : Follows x explore script step front first)
    (hnext : ∀ a, Follows x explore script (next a) back (second a)) :
    Follows x explore script (step >>= next) (front ++ back)
      fun number => second (first number) number := by
  constructor
  intro d
  have hd := hstep.run d
  simp only [passAll_append, Bind.bind, StateT.bind, Except.bind]
  cases hfront : x.passAll explore script front d with
  | error e =>
      rw [hfront] at hd
      simp only at hd ⊢
      rw [hd]
  | ok passed =>
      rcases passed with ⟨answers, d'⟩
      rw [hfront] at hd
      rcases hd with ⟨a, ha, hanswers⟩
      have hd' := (hnext a).run d'
      simp only [ha]
      cases hback : x.passAll explore script back d' with
      | error e =>
          rw [hback] at hd'
          exact hd'
      | ok passed =>
          rcases passed with ⟨more, d''⟩
          rw [hback] at hd'
          rcases hd' with ⟨b, hb, hmore⟩
          refine ⟨b, hb, ?_⟩
          intro number hagree
          rcases Answers.agree_append.mp hagree with ⟨hfirst, hsecond⟩
          rw [← hanswers number hfirst]
          exact hmore number hsecond

theorem Follows.map {step : Discover α} {stops : List WalkStop} {first : (String → Nat) → α}
    (hstep : Follows x explore script step stops first) (f : α → β) :
    Follows x explore script (step >>= fun a => pure (f a)) stops
      fun number => f (first number) := by
  have hbind := hstep.bind fun a => follows_pure x explore script (f a)
  simpa using hbind

variable (x explore script)

theorem follows_name (n : Name) :
    Follows x explore script ((x.visitor explore script).name n) [.name n] fun _ => n := by
  constructor
  intro d
  simp only [Explorer.passAll, Explorer.pass, Explorer.visitor]
  by_cases hreserved : reservedStart.toList.isPrefixOf n.text.toList = true
  · simp only [hreserved, if_true]
    rfl
  · simp only [hreserved]
    exact ⟨n, rfl, fun _ _ => rfl⟩

theorem follows_names (names : List Name) :
    Follows x explore script (names.mapM (x.visitor explore script).name)
      (names.map WalkStop.name) fun _ => names := by
  induction names with
  | nil => exact follows_pure x explore script []
  | cons n rest ih =>
      simp only [List.mapM_cons, List.map_cons]
      exact (follows_name x explore script n).bind fun n' => ih.map (n' :: ·)

theorem follows_vars (vars : List LocalVar) :
    Follows x explore script
      (vars.mapM fun v => do
        return { v with name := ← (x.visitor explore script).name v.name })
      (vars.map fun v => .name v.name) fun _ => vars := by
  induction vars with
  | nil => exact follows_pure x explore script []
  | cons v rest ih =>
      simp only [List.mapM_cons, List.map_cons]
      have hv := (follows_name x explore script v.name).map fun n => { v with name := n }
      exact hv.bind fun v' => ih.map (v' :: ·)

/-!
## The walk of an explorer
-/

theorem follows_require (e : Expr) (name : String) (line : Nat) :
    Follows x explore script
      (do
        let id ← x.require explore script name line
        return replacement e id)
      [.call (.module name line)] fun number => replacement e (number name) := by
  constructor
  intro d
  simp only [Explorer.passAll, Explorer.pass, bind, StateT.bind, Except.bind, discover_pure]
  cases x.require explore script name line d with
  | error e => rfl
  | ok answer =>
      refine ⟨_, rfl, ?_⟩
      intro number hagree
      have hid := hagree (name, answer.1) (by simp)
      simp only at hid
      rw [hid]

theorem follows_unsupported (line : Nat) (rebuilt : (String → Nat) → α) :
    Follows x explore script (fault (.unsupportedRequire script.path line))
      [.call (.unsupported line)] rebuilt := by
  constructor
  intro d
  rfl

theorem visit_require {e : Expr} {name : String} {line : Nat}
    (h : requireCall? e = some (.module name line)) :
    (x.visitor explore script).expression e = do
      let id ← x.require explore script name line
      return some (replacement e id) := by
  simp only [Explorer.visitor, h]

theorem visit_unsupported {e : Expr} {line : Nat}
    (h : requireCall? e = some (.unsupported line)) (next : Option Expr → Discover α) :
    (x.visitor explore script).expression e >>= next =
      fault (.unsupportedRequire script.path line) := by
  simp only [Explorer.visitor, h]
  rfl

theorem visit_block (body : List Stat) :
    (x.visitor explore script).block body = pure () :=
  rfl

theorem visit_statement (s : Stat) :
    (x.visitor explore script).statement s = pure () :=
  rfl

theorem visit_entered {e : Expr} (h : requireCall? e = none) :
    (x.visitor explore script).expression e = pure none := by
  simp only [Explorer.visitor, h]

mutual

theorem Expr.follows : (e : Expr) →
    Follows x explore script (e.walk (x.visitor explore script)) e.stops
      fun number => e.rewrite number
  | .name n => by
      rw [Expr.walk, visit_entered x explore script rfl, pure_bind]
      exact (follows_name x explore script n).map Expr.name
  | .string literal => by
      rw [Expr.walk, visit_entered x explore script rfl, pure_bind]
      exact follows_pure x explore script (Expr.string literal)
  | .number numeral line => by
      rw [Expr.walk, visit_entered x explore script rfl, pure_bind]
      exact follows_pure x explore script (Expr.number numeral line)
  | .boolean value => by
      rw [Expr.walk, visit_entered x explore script rfl, pure_bind]
      exact follows_pure x explore script (Expr.boolean value)
  | .nil => by
      rw [Expr.walk, visit_entered x explore script rfl, pure_bind]
      exact follows_pure x explore script Expr.nil
  | .vararg inParens line => by
      rw [Expr.walk, visit_entered x explore script rfl, pure_bind]
      exact follows_pure x explore script (Expr.vararg inParens line)
  | .function parameters body => by
      rw [Expr.walk, visit_entered x explore script rfl, pure_bind]
      simp only [visit_block, pure_bind]
      exact (exprs_follow parameters).bind fun parameters' =>
          (block_follows body).map (Expr.function parameters')
  | .table fields => by
      rw [Expr.walk, visit_entered x explore script rfl, pure_bind]
      exact (fields_follow fields).map Expr.table
  | .binary op left right => by
      rw [Expr.walk, visit_entered x explore script rfl, pure_bind]
      exact (Expr.follows left).bind fun left' =>
          (Expr.follows right).map (Expr.binary op left')
  | .unary op operand => by
      rw [Expr.walk, visit_entered x explore script rfl, pure_bind]
      exact (Expr.follows operand).map (Expr.unary op)
  | .member base indexer n => by
      rw [Expr.walk, visit_entered x explore script rfl, pure_bind]
      exact (Expr.follows base).bind fun base' =>
          (follows_name x explore script n).map (Expr.member base' indexer)
  | .index base key => by
      rw [Expr.walk, visit_entered x explore script rfl, pure_bind]
      exact (Expr.follows base).bind fun base' =>
          (Expr.follows key).map (Expr.index base')
  | .call base arguments inParens line => by
      cases hcall : requireCall? (.call base arguments inParens line) with
      | none =>
          rw [Expr.walk, visit_entered x explore script hcall, pure_bind]
          simp only [Expr.stops, Expr.rewrite, hcall]
          exact (Expr.follows base).bind fun base' =>
            (Args.follows arguments).map fun arguments' =>
              Expr.call base' arguments' inParens line
      | some call =>
          cases call with
          | module name callLine =>
              rw [Expr.walk, visit_require x explore script hcall, bind_assoc]
              simp only [Expr.stops, Expr.rewrite, hcall, pure_bind]
              exact follows_require x explore script _ name callLine
          | unsupported callLine =>
              rw [Expr.walk, visit_unsupported x explore script hcall]
              simp only [Expr.stops, hcall]
              exact follows_unsupported x explore script callLine _

theorem Args.follows : (arguments : Args) →
    Follows x explore script (arguments.walk (x.visitor explore script)) arguments.stops
      fun number => arguments.rewrite number
  | .list arguments => by
      rw [Args.walk]
      exact (exprs_follow arguments).map Args.list
  | .table fields => by
      rw [Args.walk]
      exact (fields_follow fields).map Args.table
  | .string literal => by
      rw [Args.walk]
      exact follows_pure x explore script (Args.string literal)

theorem Field.follows : (f : Field) →
    Follows x explore script (f.walk (x.visitor explore script)) f.stops
      fun number => f.rewrite number
  | .keyed key value => by
      rw [Field.walk]
      exact (Expr.follows key).bind fun key' => (Expr.follows value).map (Field.keyed key')
  | .named n value => by
      rw [Field.walk]
      exact (follows_name x explore script n).bind fun n' =>
          (Expr.follows value).map (Field.named n')
  | .positional value => by
      rw [Field.walk]
      exact (Expr.follows value).map Field.positional

theorem Stat.follows : (s : Stat) →
    Follows x explore script (s.walk (x.visitor explore script)) s.stops
      fun number => s.rewrite number
  | .label n => by
      simp only [Stat.walk, visit_statement, pure_bind]
      exact (follows_name x explore script n).map Stat.label
  | .goto n => by
      simp only [Stat.walk, visit_statement, pure_bind]
      exact (follows_name x explore script n).map Stat.goto
  | .leave => by
      simp only [Stat.walk, visit_statement, pure_bind]
      exact follows_pure x explore script Stat.leave
  | .ret values => by
      simp only [Stat.walk, visit_statement, pure_bind]
      exact (exprs_follow values).map Stat.ret
  | .choice clauses => by
      simp only [Stat.walk, visit_statement, pure_bind]
      exact (clauses_follow clauses).map Stat.choice
  | .whileLoop condition body => by
      simp only [Stat.walk, visit_statement, visit_block, pure_bind]
      exact (Expr.follows condition).bind fun condition' =>
          (block_follows body).map (Stat.whileLoop condition')
  | .block body => by
      simp only [Stat.walk, visit_statement, visit_block, pure_bind]
      exact (block_follows body).map Stat.block
  | .repeatLoop body condition => by
      simp only [Stat.walk, visit_statement, visit_block, pure_bind]
      exact (block_follows body).bind fun body' =>
          (Expr.follows condition).map (Stat.repeatLoop body')
  | .locals vars values => by
      simp only [Stat.walk, visit_statement, pure_bind]
      exact (follows_vars x explore script vars).bind fun vars' =>
          (exprs_follow values).map (Stat.locals vars')
  | .assign targets values => by
      simp only [Stat.walk, visit_statement, pure_bind]
      exact (exprs_follow targets).bind fun targets' =>
          (exprs_follow values).map (Stat.assign targets')
  | .call e => by
      simp only [Stat.walk, visit_statement, pure_bind]
      exact (Expr.follows e).map Stat.call
  | .function isLocal name parameters body => by
      simp only [Stat.walk, visit_statement, visit_block, pure_bind]
      exact (option_follows name).bind fun name' =>
          (exprs_follow parameters).bind fun parameters' =>
            (block_follows body).map (Stat.function isLocal name' parameters')
  | .forRange counter first last step body => by
      simp only [Stat.walk, visit_statement, visit_block, pure_bind]
      exact (follows_name x explore script counter).bind fun counter' =>
          (Expr.follows first).bind fun first' =>
            (Expr.follows last).bind fun last' =>
              (option_follows step).bind fun step' =>
                (block_follows body).map (Stat.forRange counter' first' last' step')
  | .forEach vars iterators body => by
      simp only [Stat.walk, visit_statement, visit_block, pure_bind]
      exact (follows_names x explore script vars).bind fun vars' =>
          (exprs_follow iterators).bind fun iterators' =>
            (block_follows body).map (Stat.forEach vars' iterators')

theorem Clause.follows : (c : Clause) →
    Follows x explore script (c.walk (x.visitor explore script)) c.stops
      fun number => c.rewrite number
  | .first condition body => by
      simp only [Clause.walk, visit_block, pure_bind]
      exact (Expr.follows condition).bind fun condition' =>
          (block_follows body).map (Clause.first condition')
  | .next condition body => by
      simp only [Clause.walk, visit_block, pure_bind]
      exact (Expr.follows condition).bind fun condition' =>
          (block_follows body).map (Clause.next condition')
  | .otherwise body => by
      simp only [Clause.walk, visit_block, pure_bind]
      exact (block_follows body).map Clause.otherwise

theorem option_follows : (e : Option Expr) →
    Follows x explore script (walkOption (x.visitor explore script) e) (optionStops e)
      fun number => rewriteOption number e
  | none => follows_pure x explore script none
  | some e => (Expr.follows e).map some

theorem exprs_follow : (es : List Expr) →
    Follows x explore script (walkExprs (x.visitor explore script) es) (exprStops es)
      fun number => rewriteExprs number es
  | [] => follows_pure x explore script []
  | e :: rest => (Expr.follows e).bind fun e' => (exprs_follow rest).map (e' :: ·)

theorem fields_follow : (fs : List Field) →
    Follows x explore script (walkFields (x.visitor explore script) fs) (fieldStops fs)
      fun number => rewriteFields number fs
  | [] => follows_pure x explore script []
  | f :: rest => (Field.follows f).bind fun f' => (fields_follow rest).map (f' :: ·)

theorem block_follows : (body : List Stat) →
    Follows x explore script (walkBlock (x.visitor explore script) body) (blockStops body)
      fun number => rewriteBlock number body
  | [] => follows_pure x explore script []
  | s :: rest => (Stat.follows s).bind fun s' => (block_follows rest).map (s' :: ·)

theorem clauses_follow : (clauses : List Clause) →
    Follows x explore script (walkClauses (x.visitor explore script) clauses)
      (clauseStops clauses) fun number => rewriteClauses number clauses
  | [] => follows_pure x explore script []
  | c :: rest => (Clause.follows c).bind fun c' => (clauses_follow rest).map (c' :: ·)

end

end Follows

/-!
## Scripts
-/

def scriptAsks (content : Text.Bytes) : List String :=
  match parseBytes content with
  | .ok chunk => (blockStops chunk.body).filterMap fun
      | .call (.module name _) => some name
      | _ => none
  | .error _ => []

theorem content_of_parse {x : Explorer} {s : Location} {chunk : Chunk}
    (h : x.parse s = .ok chunk) :
    ∃ content, x.files.read s.path = .ok content ∧ parseBytes content = .ok chunk := by
  unfold Explorer.parse at h
  cases hread : x.files.read s.path with
  | error e =>
    rw [hread] at h
    cases h
  | ok content =>
    rw [hread] at h
    change (parseBytes content).mapError (BundleError.unparsable s.path) = .ok chunk at h
    refine ⟨content, rfl, ?_⟩
    cases hparse : parseBytes content with
    | error e =>
      rw [hparse] at h
      cases h
    | ok found =>
      rw [hparse] at h
      cases h
      rfl

end LuaBundle
