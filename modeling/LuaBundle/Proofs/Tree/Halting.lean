import LuaBundle.Lua.Tour

/-!
# Walks that halt

A tour that has stopped goes on without doing anything.  A walk may as well halt where it stops:
it then leaves what it has not come to as it was, and gives the parts that it has changed
together with the rest.  Both leave the same tree and have met the same.
-/

namespace LuaBundle
namespace Lua

/-!
## Walks over parts

A walk takes what has been met so far.  It gives what becomes of a part of a tree, what has been
met then, and the name that it has halted at, if it has.
-/

abbrev Halting (α : Type) :=
  List Event → α × Tour

namespace Halting

variable {α β : Type}

def leave (a : α) : Halting α :=
  fun events => (a, ⟨events, none⟩)

def told (event : Event) (walk : Halting α) : Halting α :=
  fun events => walk (event :: events)

def map (f : α → β) (walk : Halting α) : Halting β :=
  fun events => (f (walk events).1, (walk events).2)

/-- Two walks one after the other.  Where the first one halts, the second part stays. -/
def andThen (first : Halting α) (b : β) (second : Halting β) : Halting (α × β) :=
  fun events =>
    match first events with
    | (a, ⟨met, none⟩) => ((a, (second met).1), (second met).2)
    | (a, tour) => ((a, b), tour)

end Halting

def Itinerary.haltAt (itinerary : Itinerary) (n : Name) : Halting Name :=
  fun events =>
    if itinerary.stop = some n.text then (n, ⟨.name n :: events, some n.text⟩)
    else (itinerary.rename n, ⟨.name n :: events, none⟩)

section Names

variable (itinerary : Itinerary)

def haltingNames : List Name → Halting (List Name)
  | [] => .leave []
  | n :: rest =>
      ((itinerary.haltAt n).andThen rest (haltingNames rest)).map fun p => p.1 :: p.2

def haltingVars : List LocalVar → Halting (List LocalVar)
  | [] => .leave []
  | x :: rest =>
      ((itinerary.haltAt x.name).andThen rest (haltingVars rest)).map fun p =>
        { x with name := p.1 } :: p.2

end Names

mutual

def Expr.halting (itinerary : Itinerary) (e : Expr) : Halting Expr :=
  .told (.expression e) <|
    match e with
    | .name n => (itinerary.haltAt n).map .name
    | .string literal => .leave (.string literal)
    | .number numeral line => .leave (.number numeral line)
    | .boolean value => .leave (.boolean value)
    | .nil => .leave .nil
    | .vararg inParens line => .leave (.vararg inParens line)
    | .function parameters body =>
        ((haltingExprs itinerary parameters).andThen body
          (.told (.block body) (haltingBlock itinerary body))).map fun p => .function p.1 p.2
    | .table fields => (haltingFields itinerary fields).map .table
    | .binary op left right =>
        ((left.halting itinerary).andThen right (right.halting itinerary)).map fun p =>
          .binary op p.1 p.2
    | .unary op operand => (operand.halting itinerary).map (.unary op)
    | .member base indexer n =>
        ((base.halting itinerary).andThen n (itinerary.haltAt n)).map fun p =>
          .member p.1 indexer p.2
    | .index base key =>
        ((base.halting itinerary).andThen key (key.halting itinerary)).map fun p =>
          .index p.1 p.2
    | .call base arguments inParens line =>
        ((base.halting itinerary).andThen arguments (arguments.halting itinerary)).map fun p =>
          .call p.1 p.2 inParens line

def Args.halting (itinerary : Itinerary) : Args → Halting Args
  | .list arguments => (haltingExprs itinerary arguments).map .list
  | .table fields => (haltingFields itinerary fields).map .table
  | .string literal => .leave (.string literal)

def Field.halting (itinerary : Itinerary) : Field → Halting Field
  | .keyed key value =>
      ((key.halting itinerary).andThen value (value.halting itinerary)).map fun p =>
        .keyed p.1 p.2
  | .named n value =>
      ((itinerary.haltAt n).andThen value (value.halting itinerary)).map fun p => .named p.1 p.2
  | .positional value => (value.halting itinerary).map .positional

def Stat.halting (itinerary : Itinerary) (s : Stat) : Halting Stat :=
  .told (.statement s) <|
    match s with
    | .label n => (itinerary.haltAt n).map .label
    | .goto n => (itinerary.haltAt n).map .goto
    | .leave => .leave .leave
    | .ret values => (haltingExprs itinerary values).map .ret
    | .choice clauses => (haltingClauses itinerary clauses).map .choice
    | .whileLoop condition body =>
        ((condition.halting itinerary).andThen body
          (.told (.block body) (haltingBlock itinerary body))).map fun p => .whileLoop p.1 p.2
    | .block body => .told (.block body) ((haltingBlock itinerary body).map .block)
    | .repeatLoop body condition =>
        .told (.block body) (((haltingBlock itinerary body).andThen condition
          (condition.halting itinerary)).map fun p => .repeatLoop p.1 p.2)
    | .locals vars values =>
        ((haltingVars itinerary vars).andThen values (haltingExprs itinerary values)).map fun p =>
          .locals p.1 p.2
    | .assign targets values =>
        ((haltingExprs itinerary targets).andThen values (haltingExprs itinerary values)).map
          fun p => .assign p.1 p.2
    | .call e => (e.halting itinerary).map .call
    | .function isLocal name parameters body =>
        ((haltingOption itinerary name).andThen (parameters, body)
          ((haltingExprs itinerary parameters).andThen body
            (.told (.block body) (haltingBlock itinerary body)))).map
          fun p => .function isLocal p.1 p.2.1 p.2.2
    | .forRange counter first last step body =>
        ((itinerary.haltAt counter).andThen (first, last, step, body)
          ((first.halting itinerary).andThen (last, step, body)
            ((last.halting itinerary).andThen (step, body)
              ((haltingOption itinerary step).andThen body
                (.told (.block body) (haltingBlock itinerary body)))))).map
          fun p => .forRange p.1 p.2.1 p.2.2.1 p.2.2.2.1 p.2.2.2.2
    | .forEach vars iterators body =>
        ((haltingNames itinerary vars).andThen (iterators, body)
          ((haltingExprs itinerary iterators).andThen body
            (.told (.block body) (haltingBlock itinerary body)))).map
          fun p => .forEach p.1 p.2.1 p.2.2

def Clause.halting (itinerary : Itinerary) : Clause → Halting Clause
  | .first condition body =>
      ((condition.halting itinerary).andThen body
        (.told (.block body) (haltingBlock itinerary body))).map fun p => .first p.1 p.2
  | .next condition body =>
      ((condition.halting itinerary).andThen body
        (.told (.block body) (haltingBlock itinerary body))).map fun p => .next p.1 p.2
  | .otherwise body => .told (.block body) ((haltingBlock itinerary body).map .otherwise)

def haltingOption (itinerary : Itinerary) : Option Expr → Halting (Option Expr)
  | none => .leave none
  | some e => (e.halting itinerary).map some

def haltingExprs (itinerary : Itinerary) : List Expr → Halting (List Expr)
  | [] => .leave []
  | e :: rest =>
      ((e.halting itinerary).andThen rest (haltingExprs itinerary rest)).map fun p => p.1 :: p.2

def haltingFields (itinerary : Itinerary) : List Field → Halting (List Field)
  | [] => .leave []
  | f :: rest =>
      ((f.halting itinerary).andThen rest (haltingFields itinerary rest)).map fun p => p.1 :: p.2

def haltingBlock (itinerary : Itinerary) : List Stat → Halting (List Stat)
  | [] => .leave []
  | s :: rest =>
      ((s.halting itinerary).andThen rest (haltingBlock itinerary rest)).map fun p => p.1 :: p.2

def haltingClauses (itinerary : Itinerary) : List Clause → Halting (List Clause)
  | [] => .leave []
  | c :: rest =>
      ((c.halting itinerary).andThen rest (haltingClauses itinerary rest)).map fun p => p.1 :: p.2

end

/-!
## A tour halts where it stops

As long as a tour goes on it does what the walk does.  Once it has stopped it changes nothing.
-/

structure HaltsWith {α : Type} (act : StateM Tour α) (walk : Halting α) (a : α) : Prop where
  going : ∀ events, act.run ⟨events, none⟩ = walk events
  stopped : ∀ tour : Tour, tour.stoppedAt.isSome → act.run tour = (a, tour)

section HaltsWith

variable {α β γ : Type} {itinerary : Itinerary} {act : StateM Tour α} {walk : Halting α} {a : α}

theorem haltsWith_pure (a : α) : HaltsWith (pure a) (.leave a) a where
  going _ := rfl
  stopped _ _ := rfl

theorem HaltsWith.build (h : HaltsWith act walk a) (f : α → β) :
    HaltsWith (act >>= fun x => pure (f x)) (walk.map f) (f a) where
  going events := by
    change (f (act.run ⟨events, none⟩).1, (act.run ⟨events, none⟩).2) = _
    rw [h.going]
    rfl
  stopped tour htour := by
    change (f (act.run tour).1, (act.run tour).2) = _
    rw [h.stopped tour htour]

/-- What comes after a part changes nothing if the tour has stopped in the part. -/
theorem HaltsWith.bind {next : α → StateM Tour γ} {walk' : Halting β} {b : β} (h :
    HaltsWith act walk a)
    (f : α → β → γ) (hnext : ∀ x, HaltsWith (next x) (walk'.map (f x)) (f x b)) :
    HaltsWith (act >>= next) ((walk.andThen b walk').map fun p => f p.1 p.2) (f a b) where
  going events := by
    change (next (act.run ⟨events, none⟩).1).run (act.run ⟨events, none⟩).2 = _
    rw [h.going, Halting.map, Halting.andThen]
    rcases walk events with ⟨x, met, _ | name⟩
    · exact (hnext x).going met
    · exact (hnext x).stopped ⟨met, some name⟩ rfl
  stopped tour htour := by
    change (next (act.run tour).1).run (act.run tour).2 = _
    rw [h.stopped tour htour]
    exact (hnext a).stopped tour htour

theorem HaltsWith.told {hook : StateM Tour β} {next : β → StateM Tour α} {b : β} {event : Event}
    (hhook : ∀ tour, hook.run tour = (b, tour.record event)) (h : HaltsWith (next b) walk a) :
    HaltsWith (hook >>= next) (.told event walk) a where
  going events := by
    change (next (hook.run ⟨events, none⟩).1).run (hook.run ⟨events, none⟩).2 = _
    rw [hhook]
    exact h.going (event :: events)
  stopped tour htour := by
    have hrecord : tour.record event = tour := by
      rw [Tour.record, if_neg (by simp [Option.isSome_iff_ne_none.mp htour])]
    change (next (hook.run tour).1).run (hook.run tour).2 = _
    rw [hhook, hrecord]
    exact h.stopped tour htour

theorem HaltsWith.expression {e : Expr} {next : Option Expr → StateM Tour α}
    (h : HaltsWith (next none) walk a) :
    HaltsWith (itinerary.visitor.expression e >>= next) (.told (.expression e) walk) a :=
  HaltsWith.told (fun _ => rfl) h

theorem HaltsWith.statement {s : Stat} {next : PUnit → StateM Tour α} (h :
    HaltsWith (next ⟨⟩) walk a) :
    HaltsWith (itinerary.visitor.statement s >>= next) (.told (.statement s) walk) a :=
  HaltsWith.told (fun _ => rfl) h

theorem HaltsWith.block {body : List Stat} {next : PUnit → StateM Tour α}
    (h : HaltsWith (next ⟨⟩) walk a) :
    HaltsWith (itinerary.visitor.block body >>= next) (.told (.block body) walk) a :=
  HaltsWith.told (fun _ => rfl) h

theorem HaltsWith.body {body : List Stat}
    (h : HaltsWith (walkBlock itinerary.visitor body) (haltingBlock itinerary body) body)
    (f : List Stat → α) :
    HaltsWith (itinerary.visitor.block body >>= fun _ =>
        walkBlock itinerary.visitor body >>= fun body' => pure (f body'))
      ((Halting.told (.block body) (haltingBlock itinerary body)).map f) (f body) :=
  HaltsWith.told (fun _ => rfl) (h.build f)

theorem name_haltsWith (n : Name) :
    HaltsWith (itinerary.visitor.name n) (itinerary.haltAt n) n where
  going events := by
    change itinerary.meetName n ⟨events, none⟩ = _
    unfold Itinerary.meetName Itinerary.haltAt
    rw [if_neg (by simp)]
    rfl
  stopped tour htour := by
    change itinerary.meetName n tour = _
    rw [Itinerary.meetName, if_pos htour]

theorem names_haltsWith : (names : List Name) →
    HaltsWith (names.mapM itinerary.visitor.name) (haltingNames itinerary names) names
  | [] => by
      rw [List.mapM_nil]
      exact haltsWith_pure []
  | n :: rest => by
      rw [List.mapM_cons]
      exact (name_haltsWith n).bind (· :: ·) fun n' => (names_haltsWith rest).build (n' :: ·)

theorem vars_haltsWith : (vars : List LocalVar) →
    HaltsWith (vars.mapM fun x => do return { x with name := ← itinerary.visitor.name x.name })
      (haltingVars itinerary vars) vars
  | [] => by
      rw [List.mapM_nil]
      exact haltsWith_pure []
  | x :: rest => by
      rw [List.mapM_cons]
      exact (name_haltsWith x.name).bind (fun n rest => { x with name := n } :: rest) fun n' =>
        (vars_haltsWith rest).build ({ x with name := n' } :: ·)

mutual

theorem Expr.haltsWith : (e : Expr) → HaltsWith (e.walk itinerary.visitor) (e.halting itinerary) e
  | .name n => by
      rw [Expr.walk, Expr.halting]
      exact HaltsWith.expression ((name_haltsWith n).build Expr.name)
  | .string literal => by
      rw [Expr.walk, Expr.halting]
      exact HaltsWith.expression (haltsWith_pure (Expr.string literal))
  | .number numeral line => by
      rw [Expr.walk, Expr.halting]
      exact HaltsWith.expression (haltsWith_pure (Expr.number numeral line))
  | .boolean value => by
      rw [Expr.walk, Expr.halting]
      exact HaltsWith.expression (haltsWith_pure (Expr.boolean value))
  | .nil => by
      rw [Expr.walk, Expr.halting]
      exact HaltsWith.expression (haltsWith_pure Expr.nil)
  | .vararg inParens line => by
      rw [Expr.walk, Expr.halting]
      exact HaltsWith.expression (haltsWith_pure (Expr.vararg inParens line))
  | .function parameters body => by
      rw [Expr.walk, Expr.halting]
      exact HaltsWith.expression <|
        (exprs_haltsWith parameters).bind Expr.function fun parameters' =>
          (block_haltsWith body).body (Expr.function parameters')
  | .table fields => by
      rw [Expr.walk, Expr.halting]
      exact HaltsWith.expression ((fields_haltsWith fields).build Expr.table)
  | .binary op left right => by
      rw [Expr.walk, Expr.halting]
      exact HaltsWith.expression <| (Expr.haltsWith left).bind (Expr.binary op) fun left' =>
        (Expr.haltsWith right).build (Expr.binary op left')
  | .unary op operand => by
      rw [Expr.walk, Expr.halting]
      exact HaltsWith.expression ((Expr.haltsWith operand).build (Expr.unary op))
  | .member base indexer n => by
      rw [Expr.walk, Expr.halting]
      exact HaltsWith.expression <| (Expr.haltsWith base).bind (Expr.member · indexer) fun base' =>
        (name_haltsWith n).build (Expr.member base' indexer)
  | .index base key => by
      rw [Expr.walk, Expr.halting]
      exact HaltsWith.expression <| (Expr.haltsWith base).bind Expr.index fun base' =>
        (Expr.haltsWith key).build (Expr.index base')
  | .call base arguments inParens line => by
      rw [Expr.walk, Expr.halting]
      exact HaltsWith.expression <|
        (Expr.haltsWith base).bind (Expr.call · · inParens line) fun base' =>
          (Args.haltsWith arguments).build (Expr.call base' · inParens line)

theorem Args.haltsWith : (arguments : Args) →
    HaltsWith (arguments.walk itinerary.visitor) (arguments.halting itinerary) arguments
  | .list arguments => by
      rw [Args.walk, Args.halting]
      exact (exprs_haltsWith arguments).build Args.list
  | .table fields => by
      rw [Args.walk, Args.halting]
      exact (fields_haltsWith fields).build Args.table
  | .string literal => by
      rw [Args.walk, Args.halting]
      exact haltsWith_pure (Args.string literal)

theorem Field.haltsWith : (f : Field) → HaltsWith (f.walk itinerary.visitor) (f.halting itinerary) f
  | .keyed key value => by
      rw [Field.walk, Field.halting]
      exact (Expr.haltsWith key).bind Field.keyed fun key' =>
        (Expr.haltsWith value).build (Field.keyed key')
  | .named n value => by
      rw [Field.walk, Field.halting]
      exact (name_haltsWith n).bind Field.named fun n' =>
        (Expr.haltsWith value).build (Field.named n')
  | .positional value => by
      rw [Field.walk, Field.halting]
      exact (Expr.haltsWith value).build Field.positional

theorem Stat.haltsWith : (s : Stat) → HaltsWith (s.walk itinerary.visitor) (s.halting itinerary) s
  | .label n => by
      rw [Stat.walk, Stat.halting]
      exact HaltsWith.statement ((name_haltsWith n).build Stat.label)
  | .goto n => by
      rw [Stat.walk, Stat.halting]
      exact HaltsWith.statement ((name_haltsWith n).build Stat.goto)
  | .leave => by
      rw [Stat.walk, Stat.halting]
      exact HaltsWith.statement (haltsWith_pure Stat.leave)
  | .ret values => by
      rw [Stat.walk, Stat.halting]
      exact HaltsWith.statement ((exprs_haltsWith values).build Stat.ret)
  | .choice clauses => by
      rw [Stat.walk, Stat.halting]
      exact HaltsWith.statement ((clauses_haltsWith clauses).build Stat.choice)
  | .whileLoop condition body => by
      rw [Stat.walk, Stat.halting]
      exact HaltsWith.statement <| (Expr.haltsWith condition).bind Stat.whileLoop fun condition' =>
        (block_haltsWith body).body (Stat.whileLoop condition')
  | .block body => by
      rw [Stat.walk, Stat.halting]
      exact HaltsWith.statement ((block_haltsWith body).body Stat.block)
  | .repeatLoop body condition => by
      rw [Stat.walk, Stat.halting]
      exact HaltsWith.statement <| HaltsWith.block <|
        (block_haltsWith body).bind Stat.repeatLoop fun body' =>
          (Expr.haltsWith condition).build (Stat.repeatLoop body')
  | .locals vars values => by
      rw [Stat.walk, Stat.halting]
      exact HaltsWith.statement <| (vars_haltsWith vars).bind Stat.locals fun vars' =>
        (exprs_haltsWith values).build (Stat.locals vars')
  | .assign targets values => by
      rw [Stat.walk, Stat.halting]
      exact HaltsWith.statement <| (exprs_haltsWith targets).bind Stat.assign fun targets' =>
        (exprs_haltsWith values).build (Stat.assign targets')
  | .call e => by
      rw [Stat.walk, Stat.halting]
      exact HaltsWith.statement ((Expr.haltsWith e).build Stat.call)
  | .function isLocal name parameters body => by
      rw [Stat.walk, Stat.halting]
      exact HaltsWith.statement <| (option_haltsWith name).bind
        (fun name (p : List Expr × List Stat) => Stat.function isLocal name p.1 p.2) fun name' =>
          (exprs_haltsWith parameters).bind (Stat.function isLocal name') fun parameters' =>
            (block_haltsWith body).body (Stat.function isLocal name' parameters')
  | .forRange counter first last step body => by
      rw [Stat.walk, Stat.halting]
      exact HaltsWith.statement <| (name_haltsWith counter).bind
        (fun counter (p : Expr × Expr × Option Expr × List Stat) =>
          Stat.forRange counter p.1 p.2.1 p.2.2.1 p.2.2.2) fun counter' =>
          (Expr.haltsWith first).bind
            (fun first (p : Expr × Option Expr × List Stat) =>
              Stat.forRange counter' first p.1 p.2.1 p.2.2) fun first' =>
              (Expr.haltsWith last).bind
                (fun last (p : Option Expr × List Stat) =>
                  Stat.forRange counter' first' last p.1 p.2) fun last' =>
                  (option_haltsWith step).bind (Stat.forRange counter' first' last') fun step' =>
                    (block_haltsWith body).body (Stat.forRange counter' first' last' step')
  | .forEach vars iterators body => by
      rw [Stat.walk, Stat.halting]
      exact HaltsWith.statement <| (names_haltsWith vars).bind
        (fun vars (p : List Expr × List Stat) => Stat.forEach vars p.1 p.2) fun vars' =>
          (exprs_haltsWith iterators).bind (Stat.forEach vars') fun iterators' =>
            (block_haltsWith body).body (Stat.forEach vars' iterators')

theorem Clause.haltsWith : (c :
    Clause) → HaltsWith (c.walk itinerary.visitor) (c.halting itinerary) c
  | .first condition body => by
      rw [Clause.walk, Clause.halting]
      exact (Expr.haltsWith condition).bind Clause.first fun condition' =>
        (block_haltsWith body).body (Clause.first condition')
  | .next condition body => by
      rw [Clause.walk, Clause.halting]
      exact (Expr.haltsWith condition).bind Clause.next fun condition' =>
        (block_haltsWith body).body (Clause.next condition')
  | .otherwise body => by
      rw [Clause.walk, Clause.halting]
      exact (block_haltsWith body).body Clause.otherwise

theorem option_haltsWith : (o : Option Expr) →
    HaltsWith (walkOption itinerary.visitor o) (haltingOption itinerary o) o
  | none => by
      rw [walkOption, haltingOption]
      exact haltsWith_pure none
  | some e => by
      rw [walkOption, haltingOption]
      exact (Expr.haltsWith e).build some

theorem exprs_haltsWith : (es : List Expr) →
    HaltsWith (walkExprs itinerary.visitor es) (haltingExprs itinerary es) es
  | [] => by
      rw [walkExprs, haltingExprs]
      exact haltsWith_pure []
  | e :: rest => by
      rw [walkExprs, haltingExprs]
      exact (Expr.haltsWith e).bind (· :: ·) fun e' => (exprs_haltsWith rest).build (e' :: ·)

theorem fields_haltsWith : (fs : List Field) →
    HaltsWith (walkFields itinerary.visitor fs) (haltingFields itinerary fs) fs
  | [] => by
      rw [walkFields, haltingFields]
      exact haltsWith_pure []
  | f :: rest => by
      rw [walkFields, haltingFields]
      exact (Field.haltsWith f).bind (· :: ·) fun f' => (fields_haltsWith rest).build (f' :: ·)

theorem block_haltsWith : (body : List Stat) →
    HaltsWith (walkBlock itinerary.visitor body) (haltingBlock itinerary body) body
  | [] => by
      rw [walkBlock, haltingBlock]
      exact haltsWith_pure []
  | s :: rest => by
      rw [walkBlock, haltingBlock]
      exact (Stat.haltsWith s).bind (· :: ·) fun s' => (block_haltsWith rest).build (s' :: ·)

theorem clauses_haltsWith : (clauses : List Clause) →
    HaltsWith (walkClauses itinerary.visitor clauses) (haltingClauses itinerary clauses) clauses
  | [] => by
      rw [walkClauses, haltingClauses]
      exact haltsWith_pure []
  | c :: rest => by
      rw [walkClauses, haltingClauses]
      exact (Clause.haltsWith c).bind (· :: ·) fun c' => (clauses_haltsWith rest).build (c' :: ·)

end

end HaltsWith

/-- A tour leaves the tree, and has met what, a walk does that halts at the name where the tour
stops. -/
theorem run_halting (itinerary : Itinerary) (body : List Stat) :
    itinerary.run body = haltingBlock itinerary body [] :=
  (block_haltsWith body).going []

end Lua
end LuaBundle
