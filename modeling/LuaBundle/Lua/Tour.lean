import LuaBundle.Lua.Walk

/-!
# Tours

A tour is a walk that records what it meets, renames names by a list, and stops at a name.
Nothing is recorded or renamed from the stop on.
-/

namespace LuaBundle
namespace Lua

inductive Event where
  | block (body : List Stat)
  | statement (s : Stat)
  | expression (e : Expr)
  | name (n : Name)

/-- What a tour has met so far, the last event first, and the name it has stopped at. -/
structure Tour where
  events : List Event := []
  stoppedAt : Option String := none

/-- What a tour is to rename, and where it is to stop. -/
structure Itinerary where
  renamings : List (String × String) := []
  stop : Option String := none

def Tour.record (tour : Tour) (event : Event) : Tour :=
  if tour.stoppedAt.isNone then { tour with events := event :: tour.events } else tour

def Itinerary.rename (itinerary : Itinerary) (n : Name) : Name :=
  match itinerary.renamings.lookup n.text with
  | some text => { n with text }
  | none => n

def Itinerary.meetName (itinerary : Itinerary) (n : Name) (tour : Tour) : Name × Tour :=
  if tour.stoppedAt.isSome then (n, tour)
  else if itinerary.stop = some n.text then
    (n, { tour.record (.name n) with stoppedAt := some n.text })
  else (itinerary.rename n, tour.record (.name n))

def Itinerary.visitor (itinerary : Itinerary) : Visitor (StateM Tour) where
  block body := modify (·.record (.block body))
  statement s := modify (·.record (.statement s))
  expression e := do
    modify (·.record (.expression e))
    return none
  name n := modifyGet (itinerary.meetName n)

def Itinerary.run (itinerary : Itinerary) (body : List Stat) : List Stat × Tour :=
  (walkBlock itinerary.visitor body).run {}

end Lua
end LuaBundle
