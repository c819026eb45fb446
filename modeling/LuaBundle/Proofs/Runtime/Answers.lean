import LuaBundle.Proofs.Runtime.Evaluation

/-!
# What the loader does with a call

The statements of the loader, evaluated once and for all: a module that has a result is
answered with it, any other has its function called, and what the function returns becomes
its result.
-/

namespace LuaBundle
namespace Runtime

open Lua

variable {α γ : Type}

/-!
## Steps of an evaluation
-/

section Steps

variable {β δ : Type} (s : State α γ)

@[simp] theorem run_bind (first : Run α γ β) (next : β → Run α γ δ) :
    (first >>= next) s =
      match first s with
      | (.ok b, s') => next b s'
      | (.error stop, s') => (.error stop, s') := by
  simp only [bind, ExceptT.bind, ExceptT.mk, ExceptT.bindCont, StateT.bind]
  rcases first s with ⟨outcome, s'⟩
  cases outcome <;> rfl

@[simp] theorem run_pure (b : β) : (pure b : Run α γ β) s = (.ok b, s) :=
  rfl

@[simp] theorem run_get : (get : Run α γ (State α γ)) s = (.ok s, s) :=
  rfl

@[simp] theorem run_modify (f : State α γ → State α γ) :
    (modify f : Run α γ PUnit) s = (.ok ⟨⟩, f s) :=
  rfl

@[simp] theorem run_throw (stop : Stop α) : (throw stop : Run α γ β) s = (.error stop, s) :=
  rfl

@[simp] theorem run_map (f : β → δ) (first : Run α γ β) :
    (f <$> first) s =
      match first s with
      | (.ok b, s') => (.ok (f b), s')
      | (.error stop, s') => (.error stop, s') := by
  show (first >>= fun b => pure (f b)) s = _
  rw [run_bind]
  rfl

def resume (load : Nat → Run α γ (List (Value α))) (next : γ → Result α → Action α γ) :
    Except (Stop α) (List (Value α)) × State α γ → Except (Stop α) (List (Value α)) × State α γ
  | (.ok vs, s) => (next s.globals (.values vs)).run load s
  | (.error (.raised e), s) => (next s.globals (.raised e)).run load s
  | (.error stop, s) => (.error stop, s)

theorem run_load (load : Nat → Run α γ (List (Value α))) (globals : γ) (id : Nat)
    (next : γ → Result α → Action α γ) :
    (Action.load globals id next).run load s =
      resume load next (load id { s with globals }) := by
  simp only [Action.run, run_bind, run_modify, attempt]
  rcases load id { s with globals } with ⟨outcome, s'⟩
  cases outcome with
  | ok vs => rfl
  | error stop => cases stop <;> rfl

end Steps

/-!
## The result of a module
-/

/-- What a module is worth to those that ask for it: the first value its function returns, or
`true` if that is nil. -/
def kept (values : List (Value α)) : Value α :=
  match values.headD .nil with
  | .nil => .boolean true
  | v => v

theorem kept_of_nil {values : List (Value α)} (h : values.headD .nil = .nil) :
    kept values = .boolean true := by
  rw [kept, h]

theorem kept_of_ne {values : List (Value α)} (h : values.headD .nil ≠ .nil) :
    kept values = values.headD .nil := by
  unfold kept
  split
  · contradiction
  · rfl

theorem kept_ne_nil (values : List (Value α)) : kept values ≠ .nil := by
  unfold kept
  split
  · intro h
    cases h
  · assumption

/-!
## What a call leaves behind

A call for a module is answered with the result that is kept, is refused, or has a function
run, which returns or raises an error.
-/

def State.recall (s : State α γ) (id : Nat) (v : Value α) : State α γ :=
  (s.note (.asked id)).note (.answered id (.values [v]))

/-- A call for a module that does not exist. -/
def State.refuse (s : State α γ) (id : Nat) (e : Value α) : State α γ :=
  (s.note (.asked id)).note (.answered id (.raised e))

def State.start (s : State α γ) (id : Nat) : State α γ :=
  (s.note (.asked id)).note (.started id)

/-- The function of a module comes to an end, and what it returned becomes the result. -/
def State.complete (s : State α γ) (id : Nat) (vs : List (Value α)) : State α γ :=
  ((s.note (.ended id (.values vs))).store (.number id) (kept vs)).note
    (.answered id (.values [kept vs]))

def State.fail (s : State α γ) (id : Nat) (e : Value α) : State α γ :=
  (s.note (.ended id (.raised e))).note (.answered id (.raised e))

theorem recall_log (s : State α γ) (id : Nat) (v : Value α) :
    (s.recall id v).log =
      s.log ++ [(.asked id, s.cache), (.answered id (.values [v]), s.cache)] := by
  simp [State.recall, State.note]

theorem refuse_log (s : State α γ) (id : Nat) (e : Value α) :
    (s.refuse id e).log =
      s.log ++ [(.asked id, s.cache), (.answered id (.raised e), s.cache)] := by
  simp [State.refuse, State.note]

theorem start_log (s : State α γ) (id : Nat) :
    (s.start id).log = s.log ++ [(.asked id, s.cache), (.started id, s.cache)] := by
  simp [State.start, State.note]

theorem complete_log (s : State α γ) (id : Nat) (vs : List (Value α)) :
    (s.complete id vs).log = s.log ++ [(.ended id (.values vs), s.cache),
      (.answered id (.values [kept vs]), (s.complete id vs).cache)] := by
  simp [State.complete, State.note, State.store]

theorem fail_log (s : State α γ) (id : Nat) (e : Value α) :
    (s.fail id e).log = s.log ++ [(.ended id (.raised e), s.cache),
      (.answered id (.raised e), s.cache)] := by
  simp [State.fail, State.note]

def settle (id : Nat) :
    Except (Stop α) (List (Value α)) × State α γ → Except (Stop α) (List (Value α)) × State α γ
  | (.ok vs, s) => (.ok [kept vs], s.complete id vs)
  | (.error (.raised e), s) => (.error (.raised e), s.fail id e)
  | (.error stop, s) => (.error stop, s)

variable [DecidableEq α]

theorem get_store_self (s : State α γ) (key value : Value α) :
    (s.store key value).cache.get key = value := by
  simp [State.store, Table.get]

theorem get_store_of_ne (s : State α γ) {key other : Value α} (h : other ≠ key)
    (value : Value α) : (s.store key value).cache.get other = s.cache.get other := by
  have differ : (other == key) = false := by simpa using h
  simp [State.store, Table.get, List.lookup_cons, differ]

theorem equal_nil (v : Value α) (s : State α γ) :
    equal v .nil s = (.ok (decide (v = .nil)), s) := by
  cases v <;> rfl

/-!
## A call of the loader
-/

section Calls

variable (factories : Factories α γ) (load : Nat → Run α γ (List (Value α)))

def produce (id : Nat) : Run α γ (List (Value α)) := do
  let vs ← callValue factories load (if (factories id).isSome then .factory id else .nil)
  modify (·.store (.number id) (kept vs))
  return [kept vs]

theorem call_loader_of_known {id : Nat} {s : State α γ}
    (known : s.cache.get (.number id) ≠ .nil) :
    callFunction factories load (.number id) loader s =
      (.ok [s.cache.get (.number id)], s) := by
  simp only [callFunction, loader, loaderBody, localRef, localStat, whenStat, resultSlot,
    callExpr, executeAll, execute, executeClauses, evaluate]
  simp [getField, cacheName, packagesName, List.lookup_cons, equal_nil, known, Value.holds]

theorem call_loader_of_unknown {id : Nat} {s : State α γ}
    (unknown : s.cache.get (.number id) = .nil) :
    callFunction factories load (.number id) loader s = produce factories load id s := by
  simp only [callFunction, loader, loaderBody, localRef, localStat, whenStat, resultSlot,
    callExpr, executeAll, execute, executeClauses, evaluate, produce]
  cases called : callValue factories load
      (if (factories id).isSome then .factory id else .nil) s with
  | mk outcome s' =>
    cases outcome with
    | error stop =>
      simp [getField, cacheName, packagesName, List.lookup_cons, equal_nil, unknown,
        Value.holds, called]
    | ok vs =>
      -- The test for nil goes one way for nil and another for anything else.
      by_cases first : vs.head?.getD .nil = .nil
      · have hkept : kept vs = .boolean true := kept_of_nil (by simpa using first)
        simp [getField, setField, cacheName, packagesName, List.lookup_cons, equal_nil,
          unknown, Value.holds, Locals.set, called, first, hkept]
      · have hkept : kept vs = vs.head?.getD .nil := by
          simpa using kept_of_ne (by simpa using first)
        simp [getField, setField, cacheName, packagesName, List.lookup_cons, equal_nil,
          unknown, Value.holds, Locals.set, called, first, hkept]

end Calls

/-!
## Asking for a module
-/

section Loads

variable (factories : Factories α γ) (depth : Nat) {id : Nat} {s : State α γ}

theorem load_known (known : s.cache.get (.number id) ≠ .nil) :
    load factories (depth + 1) id s =
      (.ok [s.cache.get (.number id)], s.recall id (s.cache.get (.number id))) := by
  have same : (s.note (.asked id)).cache = s.cache := rfl
  rw [load, observed, call_loader_of_known _ _ (by rwa [same])]
  rfl

theorem load_missing (unknown : s.cache.get (.number id) = .nil)
    (missing : factories id = none) :
    ∃ e, load factories (depth + 1) id s = (.error (.raised e), s.refuse id e) := by
  have same : (s.note (.asked id)).cache = s.cache := rfl
  rw [load, observed, call_loader_of_unknown _ _ (by rwa [same]), produce]
  simp only [run_bind, missing, Option.isSome_none, Bool.false_eq_true, if_false]
  exact ⟨_, rfl⟩

theorem load_unknown (unknown : s.cache.get (.number id) = .nil) {make : γ → Action α γ}
    (found : factories id = some make) :
    load factories (depth + 1) id s =
      settle id ((make s.globals).run (load factories depth) (s.start id)) := by
  have same : (s.note (.asked id)).cache = s.cache := rfl
  rw [load, observed, call_loader_of_unknown _ _ (by rwa [same]), produce]
  simp only [run_bind, found, Option.isSome_some, if_true, callValue, observed, run_get]
  show _ = settle id ((make s.globals).run (load factories depth)
    ((s.note (.asked id)).note (.started id)))
  have noted : ((s.note (.asked id)).note (.started id)).globals = s.globals := rfl
  rw [noted]
  rcases (make s.globals).run (load factories depth)
    ((s.note (.asked id)).note (.started id)) with ⟨outcome, s'⟩
  cases outcome with
  | ok vs => rfl
  | error stop => cases stop <;> rfl

end Loads

end Runtime
end LuaBundle
