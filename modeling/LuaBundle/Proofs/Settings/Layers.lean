import LuaBundle.Proofs.Merge
import LuaBundle.Proofs.Project.Search
import LuaBundle.Settings.Config

/-!
# Layers in order

Any number of layers, merged from the lowest to the highest: of single values the first one
given counts, and the lists that are given stand in the order of their layers, without the
items of a later list that occur before.
-/

namespace LuaBundle

/-!
## Lists without repeated items
-/

section Unseen

variable {α : Type} [BEq α]

/-- The items of a list that occur neither among others nor before in the list. -/
def unseen (seen : List α) : List α → List α
  | [] => []
  | item :: rest =>
      if seen.contains item then unseen seen rest else item :: unseen (item :: seen) rest

theorem unseen_congr {seen seen' : List α} (h : ∀ item, seen.contains item = seen'.contains item)
    (items : List α) : unseen seen items = unseen seen' items := by
  induction items generalizing seen seen' with
  | nil => rfl
  | cons item rest ih =>
      have hcons : ∀ other, (item :: seen).contains other = (item :: seen').contains other := by
        intro other
        rw [List.contains_cons, List.contains_cons, h other]
      rw [unseen, unseen, h item, ih h, ih hcons]

theorem addNew_eq (known items : List α) : addNew known items = known ++ unseen known items := by
  induction items generalizing known with
  | nil => rw [unseen, List.append_nil]; rfl
  | cons item rest ih =>
      rw [unseen]
      cases hknown : known.contains item with
      | true =>
          rw [addNew_cons, hknown]
          exact ih known
      | false =>
          have hstep : addNew known (item :: rest) = addNew (known ++ [item]) rest := by
            rw [addNew_cons, hknown]
            rfl
          have hseen : unseen (known ++ [item]) rest = unseen (item :: known) rest := by
            apply unseen_congr
            intro other
            rw [List.contains_append, List.contains_cons, List.contains_cons, Bool.or_comm]
            simp
          rw [hstep, ih, hseen]
          simp

/-- Lists one behind the other, without the items of a later list that occur before: what they
give together, if there are any. -/
def joinedLists : List (List α) → Option (List α)
  | [] => none
  | first :: later => some (first ++ unseen first later.flatten)

theorem mergeLists_none (items : Option (List α)) : mergeLists items none = items := by
  cases items <;> rfl

theorem mergeLists_joined [EquivBEq α] (first : List α) (later : List (List α)) :
    mergeLists (some first) (joinedLists later) = joinedLists (first :: later) := by
  cases later with
  | nil => simp [joinedLists, mergeLists, unseen]
  | cons second more =>
      have hjoined : addNew first (addNew second more.flatten) =
          addNew first (second ++ more.flatten) := by
        rw [addNew_addNew, addNew_append]
      simp only [joinedLists, mergeLists, ← addNew_eq, hjoined, List.flatten_cons]

end Unseen

/-!
## Merged layers
-/

def firstGiven (values : List (Option α)) (default : α) : α :=
  (values.findSome? id).getD default

@[simp] theorem firstGiven_nil (default : α) : firstGiven [] default = default :=
  rfl

@[simp] theorem firstGiven_cons (value : Option α) (values : List (Option α)) (default : α) :
    firstGiven (value :: values) default = value.getD (firstGiven values default) := by
  cases value <;> rfl

def mergedLayers (layers : List Layer) : Layer :=
  layers.foldr Layer.merge {}

theorem merged_first (field : Layer → Option α) (hempty : field {} = none)
    (hmerge : ∀ upper lower, field (upper.merge lower) = merge (field upper) (field lower))
    (layers : List Layer) (default : α) :
    (field (mergedLayers layers)).getD default = firstGiven (layers.map field) default := by
  induction layers with
  | nil => rw [mergedLayers, List.foldr_nil, hempty]; rfl
  | cons layer rest ih =>
      have hmerged : field (mergedLayers (layer :: rest)) =
          merge (field layer) (field (mergedLayers rest)) :=
        hmerge layer (mergedLayers rest)
      rw [List.map_cons, firstGiven_cons, ← ih, hmerged]
      cases field layer <;> rfl

theorem merged_dependencyDirs (layers : List Layer) :
    (mergedLayers layers).dependencyDirs =
      joinedLists (layers.filterMap Layer.dependencyDirs) := by
  induction layers with
  | nil => rfl
  | cons layer rest ih =>
      have hmerged : (mergedLayers (layer :: rest)).dependencyDirs =
          mergeLists layer.dependencyDirs (mergedLayers rest).dependencyDirs := rfl
      rw [hmerged, ih, List.filterMap_cons]
      cases hlayer : layer.dependencyDirs with
      | none => rfl
      | some items => exact mergeLists_joined items _

end LuaBundle
