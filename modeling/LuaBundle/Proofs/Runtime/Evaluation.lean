import LuaBundle.Bundle.Loader

/-!
# Running the loader

What the statements of the loader do when a bundle runs.  They are evaluated as a program
would, over the table of the functions of modules, the table of results and a global state
that only modules look at.  The function of a module is any action that comes to an end: it
may change the global state, ask the loader for modules, go on after an error or raise one.

Only what generated statements are made of has a meaning here; an evaluation that meets
anything else ends as foreign.
-/

namespace LuaBundle
namespace Runtime

open Lua

/-!
## Values and actions

The functions of modules are not evaluated but are actions: they ask for modules, give values,
or raise errors, and may depend on all that they were answered.
-/

inductive TableName where
  | packages
  | cache
deriving DecidableEq, Repr

/-- A value.  Functions of modules are told apart by their numbers.  What else a program may
hold is of a type of its own. -/
inductive Value (α : Type) where
  | nil
  | boolean (b : Bool)
  | number (n : Nat)
  | text (s : String)
  | table (name : TableName)
  | factory (id : Nat)
  | other (a : α)
deriving DecidableEq, Repr

inductive Result (α : Type) where
  | values (vs : List (Value α))
  | raised (e : Value α)
deriving DecidableEq, Repr

/-- What the function of a module does from some global state on.  Where it asks for a module,
it goes on with the global state and the result that it is then given. -/
inductive Action (α γ : Type) where
  | finish (globals : γ) (values : List (Value α))
  | raise (globals : γ) (e : Value α)
  | load (globals : γ) (id : Nat) (next : γ → Result α → Action α γ)

abbrev Factories (α γ : Type) := Nat → Option (γ → Action α γ)

/-!
## States

A run keeps the table of results and a record of its calls, with the table at each time.  It
ends early with an error, where calls of the loader nest too deep, or at something foreign.
-/

/-- What can be observed of a module: it is asked for, its function starts and ends, and the
call that asked for it is answered. -/
inductive Event (α : Type) where
  | asked (id : Nat)
  | started (id : Nat)
  | ended (id : Nat) (result : Result α)
  | answered (id : Nat) (result : Result α)
deriving DecidableEq, Repr

/-- A table.  Of two fields with one key the first counts. -/
abbrev Table (α : Type) := List (Value α × Value α)

def Table.get [DecidableEq α] (table : Table α) (key : Value α) : Value α :=
  (table.lookup key).getD .nil

abbrev Log (α : Type) := List (Event α × Table α)

structure State (α γ : Type) where
  cache : Table α := []
  globals : γ
  log : Log α := []

inductive Stop (α : Type) where
  | raised (e : Value α)
  /-- Calls are nested deeper than the run is followed. -/
  | cut
  /-- There is something that has no meaning here. -/
  | foreign
deriving DecidableEq, Repr

abbrev Run (α γ β : Type) := ExceptT (Stop α) (StateM (State α γ)) β

def State.note (s : State α γ) (event : Event α) : State α γ :=
  { s with log := s.log ++ [(event, s.cache)] }

def State.store (s : State α γ) (key value : Value α) : State α γ :=
  { s with cache := (key, value) :: s.cache }

def observed (start : Event α) (done : Result α → Event α)
    (call : Run α γ (List (Value α))) : Run α γ (List (Value α)) := fun s =>
  match call (s.note start) with
  | (.ok vs, s) => (.ok vs, s.note (done (.values vs)))
  | (.error (.raised e), s) => (.error (.raised e), s.note (done (.raised e)))
  | (.error stop, s) => (.error stop, s)

def attempt (call : Run α γ (List (Value α))) : Run α γ (Result α) := fun s =>
  match call s with
  | (.ok vs, s) => (.ok (.values vs), s)
  | (.error (.raised e), s) => (.ok (.raised e), s)
  | (.error stop, s) => (.error stop, s)

/-- Carries out an action, given what loads a module. -/
def Action.run (load : Nat → Run α γ (List (Value α))) : Action α γ → Run α γ (List (Value α))
  | .finish globals vs => do
      modify fun s => { s with globals }
      return vs
  | .raise globals e => do
      modify fun s => { s with globals }
      throw (.raised e)
  | .load globals id next => do
      modify fun s => { s with globals }
      let result ← attempt (load id)
      (next (← get).globals result).run load

/-!
## Expressions and statements

Only what the loader is made of has a meaning here; everything else is foreign.
-/

def Value.holds : Value α → Bool
  | .nil => false
  | .boolean b => b
  | _ => true

abbrev Locals (α : Type) := List (String × Value α)

def Locals.set (name : String) (value : Value α) : Locals α → Locals α
  | [] => []
  | (n, v) :: rest =>
      if n = name then (n, value) :: rest else (n, v) :: Locals.set name value rest

section Evaluation

variable {α γ : Type} [DecidableEq α]

/-- Whether two values are equal.  Equality of things may be defined by a program. -/
def equal : Value α → Value α → Run α γ Bool
  | .other _, .other _ => throw .foreign
  | v, w => return decide (v = w)

def getField (factories : Factories α γ) : Value α → Value α → Run α γ (Value α)
  | .table .packages, .number id =>
      return if (factories id).isSome then .factory id else .nil
  | .table .packages, _ => return .nil
  | .table .cache, key => return (← get).cache.get key
  | _, _ => throw .foreign

def setField : Value α → Value α → Value α → Run α γ Unit
  | .table .cache, .nil, _ => throw (.raised (.text "index is nil"))
  | .table .cache, key, value => modify (·.store key value)
  | _, _, _ => throw .foreign

def callValue (factories : Factories α γ) (load : Nat → Run α γ (List (Value α))) :
    Value α → Run α γ (List (Value α))
  | .factory id =>
      match factories id with
      | some factory =>
          observed (.started id) (.ended id) do (factory (← get).globals).run load
      | none => throw .foreign
  | .other _ => throw .foreign
  | _ => throw (.raised (.text "attempt to call a value that is no function"))

/-- The value of an expression.  A call gives its first value. -/
def evaluate (factories : Factories α γ) (load : Nat → Run α γ (List (Value α)))
    (locals : Locals α) : Expr → Run α γ (Value α)
  | .nil => return .nil
  | .boolean b => return .boolean b
  | .name n =>
      match n.isLocal, locals.lookup n.text with
      | true, some v => return v
      | _, _ => throw .foreign
  | .index base key => do
      let table ← evaluate factories load locals base
      let key ← evaluate factories load locals key
      getField factories table key
  | .binary op left right => do
      let v ← evaluate factories load locals left
      let w ← evaluate factories load locals right
      match op with
      | .eq => return .boolean (← equal v w)
      | .ne => return .boolean (!(← equal v w))
      | _ => throw .foreign
  | .call base (.list []) _ _ => do
      let f ← evaluate factories load locals base
      return (← callValue factories load f).headD .nil
  | _ => throw .foreign

/-- How statements end: what follows them goes on, or values are returned. -/
inductive Ending (α : Type) where
  | goesOn (locals : Locals α)
  | returns (values : List (Value α))

mutual

def execute (factories : Factories α γ) (load : Nat → Run α γ (List (Value α)))
    (locals : Locals α) : Stat → Run α γ (Ending α)
  | .locals [v] [e] => do
      let value ← evaluate factories load locals e
      return .goesOn ((v.name.text, value) :: locals)
  | .assign [.name n] [e] => do
      let value ← evaluate factories load locals e
      match n.isLocal, locals.lookup n.text with
      | true, some _ => return .goesOn (locals.set n.text value)
      | _, _ => throw .foreign
  | .assign [.index base key] [e] => do
      let table ← evaluate factories load locals base
      let key ← evaluate factories load locals key
      let value ← evaluate factories load locals e
      setField table key value
      return .goesOn locals
  | .choice clauses => executeClauses factories load locals clauses
  | .ret [.name n] => return .returns [← evaluate factories load locals (.name n)]
  | _ => throw .foreign

/-- Executes the first clause whose condition holds.  What it declares ends with it. -/
def executeClauses (factories : Factories α γ) (load : Nat → Run α γ (List (Value α)))
    (locals : Locals α) : List Clause → Run α γ (Ending α)
  | [] => return .goesOn locals
  | .first condition body :: rest => do
      if (← evaluate factories load locals condition).holds then
        match ← executeAll factories load locals body with
        | .goesOn inner => return .goesOn (inner.drop (inner.length - locals.length))
        | .returns vs => return .returns vs
      else executeClauses factories load locals rest
  | _ => throw .foreign

def executeAll (factories : Factories α γ) (load : Nat → Run α γ (List (Value α)))
    (locals : Locals α) : List Stat → Run α γ (Ending α)
  | [] => return .goesOn locals
  | s :: rest => do
      match ← execute factories load locals s with
      | .goesOn locals => executeAll factories load locals rest
      | .returns vs => return .returns vs

end

/-- Calls a function with a parameter whose body may use the tables of a bundle. -/
def callFunction (factories : Factories α γ) (load : Nat → Run α γ (List (Value α)))
    (argument : Value α) : Expr → Run α γ (List (Value α))
  | .function [.name parameter] body => do
      let locals := [(parameter.text, argument), (cacheName, .table .cache),
        (packagesName, .table .packages)]
      match ← executeAll factories load locals body with
      | .goesOn _ => return []
      | .returns vs => return vs
  | _ => throw .foreign

/-- Asks the loader for a module.  Calls of the loader inside calls of the loader are followed
`depth` deep. -/
def load (factories : Factories α γ) : Nat → Nat → Run α γ (List (Value α))
  | 0, _ => throw .cut
  | depth + 1, id =>
      observed (.asked id) (.answered id)
        (callFunction factories (load factories depth) (.number id) loader)

/-- A run: a program that asks the loader for modules, from a global state and an empty table
of results on. -/
def session (factories : Factories α γ) (depth : Nat) (main : Action α γ) (globals : γ) :
    Except (Stop α) (List (Value α)) × State α γ :=
  main.run (load factories depth) { globals }

end Evaluation

end Runtime
end LuaBundle
