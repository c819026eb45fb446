import LuaBundle.Proofs.Bundle.Captures
import Mathlib.Data.List.Induction

/-!
# What assembling keeps

Any table may be assembled with any trees: numbers in any order, under several paths, or
without a tree.  The bundle holds each numbered tree once, in ascending order, and the entry
behind them, and nothing of the other trees.
-/

namespace LuaBundle

open Lua

/-!
## First occurrences
-/

/-- A list holds the items of another one, each once, in the order of their first
occurrences. -/
structure FirstOccurrences [BEq α] (firsts items : List α) : Prop where
  mem : ∀ a, a ∈ firsts ↔ a ∈ items
  inOrder : firsts.Pairwise fun a b => items.idxOf a < items.idxOf b

theorem firstOccurrences_addNew [BEq α] [LawfulBEq α] (items : List α) :
    FirstOccurrences (addNew [] items) items := by
  refine ⟨fun a => by simp [mem_addNew], ?_⟩
  induction items using List.reverseRecOn with
  | nil => exact .nil
  | append_singleton items last ih =>
      have hmem : ∀ a ∈ addNew [] items, a ∈ items := fun a ha => by simpa [mem_addNew] using ha
      have hfront : (addNew [] items).Pairwise fun a b =>
          (items ++ [last]).idxOf a < (items ++ [last]).idxOf b := by
        refine ih.imp_of_mem fun {a b} ha hb hlt => ?_
        rwa [List.idxOf_append_of_mem (hmem a ha), List.idxOf_append_of_mem (hmem b hb)]
      have hstep : addNew [] (items ++ [last]) =
          if (addNew [] items).contains last then addNew [] items
          else addNew [] items ++ [last] := addNew_append [] items [last]
      rw [hstep]
      split
      · exact hfront
      · rename_i hnew
        have hlast : last ∉ items := fun h => hnew (by simpa [mem_addNew] using h)
        refine List.pairwise_append.mpr ⟨hfront, List.pairwise_singleton _ _, ?_⟩
        intro a ha b hb
        rw [List.mem_singleton.mp hb, List.idxOf_append_of_mem (hmem a ha),
          List.idxOf_append_of_notMem hlast]
        exact Nat.lt_add_right _ (List.idxOf_lt_length_of_mem (hmem a ha))

/-!
## Numbers in order
-/

theorem ids_ascending (table : ModuleTable) : table.ids.Pairwise (· < ·) := by
  have hsorted : ((table.map (·.2)).mergeSort fun a b => a ≤ b).Pairwise (· ≤ ·) := by
    refine (List.pairwise_mergeSort ?_ ?_ _).imp fun h => of_decide_eq_true h
    · intro a b c hab hbc
      exact decide_eq_true (Nat.le_trans (of_decide_eq_true hab) (of_decide_eq_true hbc))
    · intro a b
      simpa using Nat.le_total a b
  have hfirsts := firstOccurrences_addNew ((table.map (·.2)).mergeSort fun a b => a ≤ b)
  refine hfirsts.inOrder.imp_of_mem fun {a b} ha hb hlt => ?_
  have ha' := List.idxOf_lt_length_of_mem ((hfirsts.mem a).mp ha)
  have hb' := List.idxOf_lt_length_of_mem ((hfirsts.mem b).mp hb)
  have hle := List.pairwise_iff_getElem.mp hsorted _ _ ha' hb' hlt
  rw [List.getElem_idxOf, List.getElem_idxOf] at hle
  refine Nat.lt_of_le_of_ne hle ?_
  rintro rfl
  exact Nat.lt_irrefl _ hlt

theorem mem_ids {table : ModuleTable} {id : Nat} : id ∈ table.ids ↔ ∃ p, (p, id) ∈ table := by
  simp [ModuleTable.ids, mem_addNew]

theorem mem_numberedTrees_iff {table : ModuleTable} {trees : ModuleTrees} {id : Nat}
    {tree : Chunk} : (id, tree) ∈ numberedTrees table trees ↔
      (∃ p, (p, id) ∈ table) ∧ trees.lookup id = some tree := by
  rw [← mem_ids, numberedTrees, List.mem_filterMap]
  constructor
  · rintro ⟨id', hid, hlookup⟩
    rcases Option.map_eq_some_iff.mp hlookup with ⟨tree', htree, heq⟩
    cases heq
    exact ⟨hid, htree⟩
  · rintro ⟨hid, htree⟩
    exact ⟨id, hid, by rw [htree]; rfl⟩

theorem numberedTrees_ids (table : ModuleTable) (trees : ModuleTrees) :
    (numberedTrees table trees).map Prod.fst =
      table.ids.filter fun id => (trees.lookup id).isSome := by
  rw [numberedTrees]
  induction table.ids with
  | nil => rfl
  | cons id rest ih => cases htree : trees.lookup id <;> simp [htree, ih]

/-!
## The assembled chunk
-/

/-- Assembling loses and duplicates nothing: the modules are the numbers of the table that
have a tree, in ascending order.  Every one gives its statements to one function of the
packages, and its comments and globals to the bundle; the entry follows, and other trees do
not matter. -/
theorem assemble_splices (table : ModuleTable) (trees : ModuleTrees) (main : Chunk) :
    ∃ modules : List (Nat × Chunk),
      (modules.map Prod.fst).Pairwise (· < ·) ∧
      (∀ id tree, (id, tree) ∈ modules ↔
        (∃ p, (p, id) ∈ table) ∧ trees.lookup id = some tree) ∧
      (assemble table trees main).body =
        [localStat loaderName [],
          localStat packagesName [.table (modules.map fun m =>
            .keyed (numberExpr m.1) (.function [.vararg false 0] m.2.body))],
          localStat cacheName [.table []],
          .assign [localRef loaderName] [loader]] ++ main.body ∧
      (assemble table trees main).comments =
        modules.flatMap (·.2.comments) ++ main.comments ∧
      FirstOccurrences (assemble table trees main).globals
        (modules.flatMap (·.2.globals) ++ main.globals) ∧
      ∀ others : ModuleTrees, (∀ p id, (p, id) ∈ table → others.lookup id = trees.lookup id) →
        assemble table others main = assemble table trees main := by
  refine ⟨numberedTrees table trees, ?ascending, fun id tree => mem_numberedTrees_iff, ?body, rfl,
    firstOccurrences_addNew _, ?others⟩
  case ascending =>
    rw [numberedTrees_ids]
    exact (ids_ascending table).filter _
  case body => rfl
  case others =>
    intro others hothers
    have hsame : numberedTrees table others = numberedTrees table trees := by
      refine List.filterMap_congr fun id hid => ?_
      rcases mem_ids.mp hid with ⟨p, hp⟩
      rw [hothers p id hp]
    simp only [assemble, hsame]

end LuaBundle
