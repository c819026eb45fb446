import LuaBundle.Lua.Tour
import LuaBundle.Proofs.Tree.Visible
import Mathlib.Data.List.FinRange

/-!
# The elements of a tree

The elements of a tree are its parts and its names, and each has a place: the way to it from
the root, by the number of the branch at every step.  Ordered as lists, the places stand in
reading order, an element before the ones in it.
-/

namespace LuaBundle
namespace Lua

inductive Element where
  | part (p : Part)
  | name (n : Name)

/-!
## Directly in an element

Everything in reading order.  The name of an attribute is no element.
-/

def exprElements (es : List Expr) : List Element :=
  es.map fun e => .part (.expr e)

def fieldElements (fs : List Field) : List Element :=
  fs.map fun f => .part (.field f)

def blockElements (body : List Stat) : List Element :=
  body.map fun s => .part (.stat s)

def nameElements (names : List Name) : List Element :=
  names.map .name

def clauseElements (clauses : List Clause) : List Element :=
  clauses.map fun c => .part (.clause c)

def Expr.elements : Expr → List Element
  | .name n => [.name n]
  | .string _ | .number .. | .boolean _ | .nil | .vararg .. => []
  | .function parameters body => exprElements parameters ++ [.part (.block body)]
  | .table fields => fieldElements fields
  | .binary _ left right => [.part (.expr left), .part (.expr right)]
  | .unary _ operand => [.part (.expr operand)]
  | .member base _ n => [.part (.expr base), .name n]
  | .index base key => [.part (.expr base), .part (.expr key)]
  | .call base arguments _ _ => [.part (.expr base), .part (.args arguments)]

def Args.elements : Args → List Element
  | .list arguments => exprElements arguments
  | .table fields => fieldElements fields
  | .string _ => []

def Field.elements : Field → List Element
  | .keyed key value => [.part (.expr key), .part (.expr value)]
  | .named n value => [.name n, .part (.expr value)]
  | .positional value => [.part (.expr value)]

def Stat.elements : Stat → List Element
  | .label n => [.name n]
  | .goto n => [.name n]
  | .leave => []
  | .ret values => exprElements values
  | .choice clauses => clauseElements clauses
  | .whileLoop condition body => [.part (.expr condition), .part (.block body)]
  | .block body => [.part (.block body)]
  | .repeatLoop body condition => [.part (.block body), .part (.expr condition)]
  | .locals vars values => nameElements (vars.map LocalVar.name) ++ exprElements values
  | .assign targets values => exprElements targets ++ exprElements values
  | .call e => [.part (.expr e)]
  | .function _ name parameters body =>
      exprElements name.toList ++ (exprElements parameters ++ [.part (.block body)])
  | .forRange counter first last step body =>
      [.name counter] ++ ([.part (.expr first)] ++ ([.part (.expr last)] ++
        (exprElements step.toList ++ [.part (.block body)])))
  | .forEach vars iterators body =>
      nameElements vars ++ (exprElements iterators ++ [.part (.block body)])

def Clause.elements : Clause → List Element
  | .first condition body => [.part (.expr condition), .part (.block body)]
  | .next condition body => [.part (.expr condition), .part (.block body)]
  | .otherwise body => [.part (.block body)]

def Part.elements : Part → List Element
  | .expr e => e.elements
  | .args arguments => arguments.elements
  | .field f => f.elements
  | .stat s => s.elements
  | .clause c => c.elements
  | .block body => blockElements body

def Element.elements : Element → List Element
  | .part p => p.elements
  | .name _ => []

/-!
## Sizes
-/

section Sizes

variable {x : Element}

@[grind →]
theorem sizeOf_exprElements {es : List Expr} (h : x ∈ exprElements es) :
    sizeOf x < sizeOf es + 2 := by
  rcases List.mem_map.mp h with ⟨e, he, rfl⟩
  have hlt := List.sizeOf_lt_of_mem he
  simp only [Element.part.sizeOf_spec, Part.expr.sizeOf_spec]
  omega

@[grind →]
theorem sizeOf_fieldElements {fs : List Field} (h : x ∈ fieldElements fs) :
    sizeOf x < sizeOf fs + 2 := by
  rcases List.mem_map.mp h with ⟨f, hf, rfl⟩
  have hlt := List.sizeOf_lt_of_mem hf
  simp only [Element.part.sizeOf_spec, Part.field.sizeOf_spec]
  omega

@[grind →]
theorem sizeOf_blockElements {body : List Stat} (h : x ∈ blockElements body) :
    sizeOf x < sizeOf body + 2 := by
  rcases List.mem_map.mp h with ⟨s, hs, rfl⟩
  have hlt := List.sizeOf_lt_of_mem hs
  simp only [Element.part.sizeOf_spec, Part.stat.sizeOf_spec]
  omega

@[grind →]
theorem sizeOf_clauseElements {clauses : List Clause} (h : x ∈ clauseElements clauses) :
    sizeOf x < sizeOf clauses + 2 := by
  rcases List.mem_map.mp h with ⟨c, hc, rfl⟩
  have hlt := List.sizeOf_lt_of_mem hc
  simp only [Element.part.sizeOf_spec, Part.clause.sizeOf_spec]
  omega

@[grind →]
theorem sizeOf_optionElements {o : Option Expr} (h : x ∈ exprElements o.toList) :
    sizeOf x < sizeOf o + 2 := by
  cases o with
  | none => cases h
  | some e =>
      rw [List.mem_singleton.mp h]
      simp only [Element.part.sizeOf_spec, Part.expr.sizeOf_spec, Option.some.sizeOf_spec]
      omega

@[grind →]
theorem sizeOf_nameElements {names : List Name} (h : x ∈ nameElements names) :
    sizeOf x < sizeOf names + 1 := by
  rcases List.mem_map.mp h with ⟨n, hn, rfl⟩
  have hlt := List.sizeOf_lt_of_mem hn
  simp only [Element.name.sizeOf_spec]
  omega

theorem sizeOf_localNames (vars : List LocalVar) :
    sizeOf (vars.map LocalVar.name) ≤ sizeOf vars := by
  induction vars with
  | nil => exact Nat.le_refl _
  | cons v rest ih =>
      rcases v with ⟨n, attrib⟩
      simp only [List.map_cons, List.cons.sizeOf_spec, LocalVar.mk.sizeOf_spec]
      omega

theorem Element.sizeOf_lt {outer : Element} (h : x ∈ outer.elements) : sizeOf x < sizeOf outer := by
  rcases outer with ⟨e | arguments | f | s | c | body⟩ | n
  · cases e <;> simp [Element.elements, Part.elements, Expr.elements] at h ⊢ <;> grind
  · cases arguments <;> simp [Element.elements, Part.elements, Args.elements] at h ⊢ <;> grind
  · cases f <;> simp [Element.elements, Part.elements, Field.elements] at h ⊢ <;> grind
  · cases s <;> simp [Element.elements, Part.elements, Stat.elements] at h ⊢ <;>
      grind [sizeOf_localNames]
  · cases c <;> simp [Element.elements, Part.elements, Clause.elements] at h ⊢ <;> grind
  · simp [Element.elements, Part.elements] at h ⊢
    grind
  · cases h

end Sizes

/-!
## Reading order
-/

def Element.preorder (x : Element) : List Element :=
  x :: x.elements.attach.flatMap fun ⟨inner, _⟩ => inner.preorder
termination_by sizeOf x
decreasing_by exact sizeOf_lt ‹_›

theorem Element.preorder_eq (x : Element) :
    x.preorder = x :: x.elements.flatMap Element.preorder := by
  rw [preorder, List.flatMap_subtype (fun _ _ => rfl), List.unattach_attach]

theorem Element.mem_preorder (x : Element) : x ∈ x.preorder := by
  rw [preorder_eq]
  exact List.mem_cons_self

theorem Element.mem_preorder_of_mem {x inner deep : Element} (h : inner ∈ x.elements)
    (hdeep : deep ∈ inner.preorder) : deep ∈ x.preorder := by
  rw [preorder_eq]
  exact List.mem_cons_of_mem _ (List.mem_flatMap.mpr ⟨inner, h, hdeep⟩)

def Element.at? (x : Element) : List Nat → Option Element
  | [] => some x
  | branch :: place =>
      match x.elements[branch]? with
      | none => none
      | some inner => inner.at? place

def Element.places (x : Element) : List (List Nat) :=
  [] :: (List.finRange x.elements.length).flatMap fun branch =>
    (x.elements[branch]).places.map (branch.val :: ·)
termination_by sizeOf x
decreasing_by exact sizeOf_lt (List.getElem_mem _)

theorem Element.places_ascending (x : Element) : x.places.Pairwise (· < ·) := by
  rw [places]
  -- The own place, the places behind one branch, and those behind different ones.
  refine List.pairwise_cons.mpr ⟨?_, List.pairwise_flatMap.mpr ⟨?_, ?_⟩⟩
  · intro place hplace
    simp only [List.mem_flatMap, List.mem_map] at hplace
    rcases hplace with ⟨branch, _, inner, _, rfl⟩
    exact List.Lex.nil
  · intro branch _
    have hinner := places_ascending x.elements[branch]
    exact List.pairwise_map.mpr (hinner.imp List.Lex.cons)
  · refine (List.pairwise_lt_finRange _).imp fun hlt place hplace other hother => ?_
    rcases List.mem_map.mp hplace with ⟨inner, _, rfl⟩
    rcases List.mem_map.mp hother with ⟨inner', _, rfl⟩
    exact List.Lex.rel hlt
termination_by sizeOf x
decreasing_by exact sizeOf_lt (List.getElem_mem _)

theorem Element.mem_places (x : Element) (place : List Nat) :
    place ∈ x.places ↔ (x.at? place).isSome := by
  induction place generalizing x with
  | nil =>
      rw [places]
      simp [at?]
  | cons branch place ih =>
      rw [places, at?]
      simp only [List.mem_cons, List.mem_flatMap, List.mem_map, List.mem_finRange, true_and,
        reduceCtorEq, false_or, List.cons.injEq]
      constructor
      · rintro ⟨number, inner, hinner, rfl, rfl⟩
        rw [List.getElem?_eq_getElem number.isLt]
        exact (ih _).mp hinner
      · intro h
        split at h
        · cases h
        · rename_i inner hinner
          rcases List.getElem?_eq_some_iff.mp hinner with ⟨hlt, rfl⟩
          exact ⟨⟨branch, hlt⟩, place, (ih _).mpr h, rfl, rfl⟩

theorem Element.map_at_places (x : Element) :
    x.places.map x.at? = x.preorder.map some := by
  have hbranch (branch : Fin x.elements.length) :
      (x.elements[branch].places.map (branch.val :: ·)).map x.at? =
        x.elements[branch].preorder.map some := by
    rw [← map_at_places x.elements[branch], List.map_map]
    refine List.map_congr_left fun place _ => ?_
    rw [Function.comp_apply, at?, List.getElem?_eq_getElem branch.isLt]
    rfl
  rw [places, preorder_eq, List.map_cons, List.map_cons, at?, List.map_flatMap, List.map_flatMap]
  simp only [hbranch]
  rw [← List.flatMap_map (fun branch : Fin x.elements.length => x.elements[branch])
    (fun inner => inner.preorder.map some)]
  exact congrArg (fun inside : List Element => some x :: inside.flatMap _)
    (List.map_getElem_finRange x.elements)
termination_by sizeOf x
decreasing_by exact sizeOf_lt (List.getElem_mem _)

/-!
## Names and events

What a walk tells of in an element, in reading order.
-/

def Element.name? : Element → Option Name
  | .name n => some n
  | .part _ => none

def Element.names (x : Element) : List Name :=
  x.preorder.filterMap Element.name?

@[simp]
theorem Element.names_name (n : Name) : (Element.name n).names = [n] := by
  rw [names, preorder_eq]
  rfl

@[simp]
theorem Element.names_part (p : Part) :
    (Element.part p).names = p.elements.flatMap Element.names := by
  rw [names, preorder_eq, List.filterMap_cons, List.filterMap_flatMap]
  rfl

/-- What a walk tells of when it arrives at an element. -/
def Element.event? : Element → Option Event
  | .part (.expr e) => some (.expression e)
  | .part (.stat s) => some (.statement s)
  | .part (.block body) => some (.block body)
  | .part _ => none
  | .name n => some (.name n)

def Element.events (x : Element) : List Event :=
  x.preorder.filterMap Element.event?

theorem Element.events_eq (x : Element) :
    x.events = x.event?.toList ++ x.elements.flatMap Element.events := by
  rw [events, preorder_eq, List.filterMap_cons, List.filterMap_flatMap]
  cases x.event? <;> rfl

def Event.name? : Event → Option Name
  | .name n => some n
  | _ => none

theorem Element.names_eq (x : Element) : x.names = x.events.filterMap Event.name? := by
  rw [names, events, List.filterMap_filterMap]
  congr 1
  funext inner
  rcases inner with ⟨e | arguments | f | s | c | body⟩ | n <;> rfl

theorem Element.exists_inner_places (x : Element) :
    ∃ places : List (List Nat), places.Pairwise (· < ·) ∧
      (∀ place, place ∈ places ↔ place ≠ [] ∧ (x.at? place).isSome) ∧
      places.map x.at? = (x.elements.flatMap Element.preorder).map some := by
  have hascending := x.places_ascending
  have hmem := x.mem_places
  have hmap := x.map_at_places
  rw [places] at hascending hmem hmap
  rw [preorder_eq] at hmap
  generalize (List.finRange x.elements.length).flatMap _ = places at hascending hmem hmap
  rcases List.pairwise_cons.mp hascending with ⟨hroot, hinner⟩
  refine ⟨places, hinner, fun place => ⟨fun h => ?_, fun h => ?_⟩, (List.cons.inj hmap).2⟩
  · refine ⟨?_, (hmem place).mp (List.mem_cons_of_mem _ h)⟩
    rintro rfl
    exact List.lt_irrefl _ (hroot [] h)
  · exact (List.mem_cons.mp ((hmem place).mpr h.2)).resolve_left h.1

theorem Element.exists_event_places (x : Element) :
    ∃ places : List (List Nat), places.Pairwise (· < ·) ∧
      (∀ place, place ∈ places ↔
        place ≠ [] ∧ ∃ inner, x.at? place = some inner ∧ inner.event?.isSome) ∧
      (x.elements.flatMap Element.events).map some =
        places.map fun place => (x.at? place).bind Element.event? := by
  rcases x.exists_inner_places with ⟨places, hascending, hmem, hmap⟩
  have hevents : x.elements.flatMap Element.events =
      places.filterMap fun place => (x.at? place).bind Element.event? := by
    have hinner : x.elements.flatMap Element.events =
        ((x.elements.flatMap Element.preorder).map some).filterMap
          (Option.bind · Element.event?) := by
      rw [List.filterMap_map, List.filterMap_flatMap]
      rfl
    rw [hinner, ← hmap, List.filterMap_map]
    rfl
  refine ⟨places.filter fun place => ((x.at? place).bind Element.event?).isSome,
    hascending.filter _, fun place => ?_, ?_⟩
  · rw [List.mem_filter, hmem, Option.isSome_bind]
    cases x.at? place <;> simp
  · rw [hevents, List.map_filterMap_some_eq_filter_map_isSome, List.filter_map]
    rfl

end Lua
end LuaBundle
