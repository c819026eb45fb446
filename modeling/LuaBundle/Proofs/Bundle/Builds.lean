import LuaBundle.Bundle.Assembly
import LuaBundle.Proofs.Bundle.Exact

/-!
# The trees of a build

The modules that a build assembles are the scripts in the order of their discovery, each
with the tree in which its calls are replaced.
-/

namespace LuaBundle

open Lua

/-!
## Lists of numbers
-/

theorem addNew_of_nodup [BEq α] [LawfulBEq α] {known items : List α}
    (h : (known ++ items).Nodup) : addNew known items = known ++ items := by
  induction items generalizing known with
  | nil => simp [addNew]
  | cons item rest ih =>
      have hnew : known.contains item = false := by
        rw [Bool.eq_false_iff]
        intro hmem
        exact (List.nodup_append.mp h).2.2 item (List.contains_iff_mem.mp hmem) item (by simp) rfl
      have hsplit : known ++ item :: rest = known ++ [item] ++ rest := by simp
      rw [hsplit] at h ⊢
      rw [← ih h]
      simp only [addNew, List.foldl_cons, hnew, Bool.false_eq_true, if_false]

theorem ids_numbered (scripts : List Location) :
    ModuleTable.ids (numbered 1 scripts) = List.range' 1 scripts.length := by
  have hsnd := numbered_snd 1 scripts
  unfold ModuleTable.ids
  rw [hsnd, List.mergeSort_of_pairwise]
  · exact addNew_of_nodup List.nodup_range'
  · refine List.Pairwise.imp ?_ List.pairwise_lt_range'
    intro a b hlt
    simpa using Nat.le_of_lt hlt

/-!
## Trees by number
-/

section Builds

variable {x : Explorer} {graph : ModuleGraph}

/-- What a build has found: scripts in the order of their discovery, and their trees. -/
structure ModuleGraph.Holds (x : Explorer) (graph : ModuleGraph) (scripts : List Location) :
    Prop where
  parsed : graph.found.parsed = x.entry.path :: scripts.map Location.path
  table : graph.found.table = numbered 1 scripts
  trees : graph.found.trees.Perm (x.treesFrom graph.found 1 scripts)
  main : graph.main = x.treeOf graph.found x.entry
  explores : ∀ s ∈ x.entry :: scripts, x.Explores graph.found s

theorem graph_holds (h : x.graph = .ok graph) : ∃ scripts, graph.Holds x scripts := by
  rcases graph_run h with
    ⟨start, scripts, answers, chunk, body, _, htrees, htable, hparsed, _, hparse, hvisits, hmain,
      hbody⟩
  have hfinal := Grown.refl graph.found
  refine ⟨scripts, ?_⟩
  constructor
  case parsed =>
    rw [hvisits.grows.2.2, hparsed]
    rfl
  case table => exact table_of_run hvisits htable
  case trees =>
    have hperm := hvisits.trees hfinal (by simp [htrees])
    rw [htrees, htable, List.append_nil] at hperm
    exact hperm
  case main =>
    rw [treeOf_eq hparse, ← hbody _ (hvisits.passes hfinal).1]
    exact hmain
  case explores => exact explores_of_run hparse hvisits

theorem filterMap_lookup {pairs : List (Nat × Chunk)} (hnodup : (pairs.map Prod.fst).Nodup)
    {more : List (Nat × Chunk)} (hmore : more ⊆ pairs) :
    (more.map Prod.fst).filterMap (fun id => (pairs.lookup id).map fun tree => (id, tree)) =
      more := by
  induction more with
  | nil => rfl
  | cons pair rest ih =>
      rcases List.cons_subset.mp hmore with ⟨hpair, hrest⟩
      rw [List.map_cons, List.filterMap_cons, lookup_of_mem_of_nodup hnodup hpair, ih hrest]
      rfl

theorem ModuleGraph.Holds.numberedTrees {scripts : List Location} (h : graph.Holds x scripts) :
    numberedTrees graph.found.table graph.found.trees = x.treesFrom graph.found 1 scripts := by
  have hnodup : (graph.found.trees.map Prod.fst).Nodup := by
    rw [(h.trees.map Prod.fst).nodup_iff, treesFrom_fst]
    exact List.nodup_range'
  rw [LuaBundle.numberedTrees, h.table, ids_numbered, ← treesFrom_fst x graph.found 1 scripts]
  exact filterMap_lookup hnodup h.trees.symm.subset

end Builds

end LuaBundle
