import LuaBundle.Proofs.Bundle.Graph

/-!
# The rewritten trees

The tree of every script in a module graph is the parsed one with the calls of `require`
replaced, and nothing else.  Every number in it is that of a module with a tree.
-/

namespace LuaBundle

open Lua

/-- A tree that is the parsed one of a script, but for the calls of `require`.  Each of them
stands for the module that its name leads to. -/
structure Explorer.IsExact (x : Explorer) (found : Discovery) (s : Location) (tree : Chunk) :
    Prop where
  /-- The numbers are those of the table, and nothing but the calls is replaced. -/
  replaced : ∃ chunk number, x.parse s = .ok chunk ∧
    tree = { chunk with body := rewriteBlock number chunk.body } ∧
    ∀ e ∈ blockNodes chunk.body, ∀ call, requireCall? e = some call →
      ∃ name line t, call = .module name line ∧ x.leadsTo found.known s name = some t ∧
        found.table.lookup t.path = some (number name)
  /-- No call of `require` is left. -/
  complete : ∀ e ∈ blockNodes tree.body, requireCall? e = none
  /-- Every call of the loader asks for a module. -/
  consistent : ∀ n arguments inParens line, n.text = loaderName →
    Expr.call (.name n) arguments inParens line ∈ blockNodes tree.body →
      ∃ id, Expr.call (.name n) arguments inParens line =
          (if inParens then (loadCall id).parenthesized else loadCall id) ∧
        1 ≤ id ∧ id ≤ found.table.length ∧ (found.trees.lookup id).isSome = true

section Exact

variable {x : Explorer} {found : Discovery} {s : Location} {chunk : Chunk}

theorem number_of_passes {stops : List WalkStop} {name : String} {line : Nat}
    (hpasses : ∀ stop ∈ stops, x.Passes found s stop)
    (hcall : WalkStop.call (.module name line) ∈ stops) :
    ∃ t, x.leadsTo found.known s name = some t ∧
      found.table.lookup t.path = some (x.numberOf found s name) := by
  rcases hpasses _ hcall with ⟨t, id, hleads, _, hlookup⟩
  refine ⟨t, hleads, ?_⟩
  rw [hlookup, numberOf_eq hleads hlookup]

theorem treeOf_eq (h : x.parse s = .ok chunk) :
    x.treeOf found s = { chunk with body := rewriteBlock (x.numberOf found s) chunk.body } := by
  simp [Explorer.treeOf, h]

/-- The tree of an explored script is exact when the numbers of the table have trees. -/
theorem isExact_of_explores (hexplores : x.Explores found s)
    (hnumbers : ∀ t id, found.table.lookup t = some id →
      1 ≤ id ∧ id ≤ found.table.length ∧ (found.trees.lookup id).isSome = true) :
    x.IsExact found s (x.treeOf found s) := by
  rcases hexplores with ⟨chunk, hparse, hpasses⟩
  have haccounts := accounts_of_passes hpasses
  have hsupported := supported_of_passes hpasses
  have hnames : ∀ n, WalkStop.name n ∈ blockStops chunk.body → n.text ≠ loaderName := by
    intro n hn heq
    refine hpasses _ hn ?_
    unfold IsReserved
    rw [heq]
    decide
  have hnodes := @block_rewrites (x.numberOf found s) chunk.body
  rw [treeOf_eq hparse]
  constructor
  case replaced =>
    refine ⟨chunk, x.numberOf found s, hparse, rfl, ?_⟩
    intro e he call hcall
    have hstop := haccounts.call e he call hcall
    cases call with
    | unsupported line => exact absurd hstop (hsupported line)
    | module name line =>
        rcases number_of_passes hpasses hstop with ⟨t, hleads, hlookup⟩
        exact ⟨name, line, t, rfl, hleads, hlookup⟩
  case complete =>
    intro e he
    exact requireCall_of_rewritten haccounts hsupported (hnodes e he)
  case consistent =>
    intro n arguments inParens line hn hcall
    rcases replaced_of_loader haccounts hnames hn (hnodes _ hcall) with
      ⟨e, he, name, callLine, hrequire, heq⟩
    rcases number_of_passes hpasses (haccounts.call e he _ hrequire) with ⟨t, _, hlookup⟩
    refine ⟨x.numberOf found s name, ?_, hnumbers _ _ hlookup⟩
    unfold replacement at heq
    split at heq
    · cases heq
      rfl
    · cases heq
      rfl

end Exact

/-- In the graph of a project every tree is the parsed one with the calls replaced: that of
the entry, and those of the modules under their numbers. -/
theorem graph_exact {x : Explorer} {graph : ModuleGraph} (h : x.graph = .ok graph) :
    ∃ scripts, graph.found.parsed = x.entry.path :: scripts.map Location.path ∧
      graph.found.table = numbered 1 scripts ∧
      x.IsExact graph.found x.entry graph.main ∧
      ∀ i s, scripts[i]? = some s →
        ∃ tree, graph.found.trees.lookup (i + 1) = some tree ∧ x.IsExact graph.found s tree := by
  rcases graph_run h with
    ⟨start, scripts, answers, chunk, body, _, htrees, htable, hparsed, _, hparse, hvisits, hmain,
      hbody⟩
  have hfinal := Grown.refl graph.found
  have htable' := table_of_run hvisits htable
  have hexplores := explores_of_run hparse hvisits
  have hlength : graph.found.table.length = scripts.length := by
    rw [htable', numbered_length]
  have hperm : graph.found.trees.Perm (x.treesFrom graph.found 1 scripts) := by
    have hperm := hvisits.trees hfinal (by simp [htrees])
    rw [htrees, htable, List.append_nil] at hperm
    exact hperm
  have hnodup : (graph.found.trees.map Prod.fst).Nodup := by
    rw [(hperm.map Prod.fst).nodup_iff, treesFrom_fst]
    exact List.nodup_range'
  -- The tree under a number is that of the script with the number.
  have hlookup : ∀ i s, scripts[i]? = some s →
      graph.found.trees.lookup (i + 1) = some (x.treeOf graph.found s) := by
    intro i s hs
    refine lookup_of_mem_of_nodup hnodup (hperm.mem_iff.mpr ?_)
    refine List.mem_map.mpr ⟨(s, i + 1), ?_, rfl⟩
    rw [Nat.add_comm]
    exact List.mk_add_mem_zipIdx_iff_getElem?.mpr hs
  have hnumbers : ∀ t id, graph.found.table.lookup t = some id →
      1 ≤ id ∧ id ≤ graph.found.table.length ∧ (graph.found.trees.lookup id).isSome = true := by
    intro t id hid
    rcases mem_of_lookup hid with ⟨p, hp, _⟩
    rw [htable'] at hp
    rcases List.mem_map.mp hp with ⟨⟨s, id'⟩, hmem, heq⟩
    cases heq
    rcases List.mk_mem_zipIdx_iff_le_and_getElem?_sub.mp hmem with ⟨hpositive, hs⟩
    have hbound := (List.getElem?_eq_some_iff.mp hs).1
    have htree := hlookup (id - 1) s hs
    rw [Nat.sub_add_cancel hpositive] at htree
    exact ⟨hpositive, by omega, by rw [htree]; rfl⟩
  refine ⟨scripts, ?_, htable', ?_, ?_⟩
  · rw [hvisits.grows.2.2, hparsed]
    rfl
  · have hexact := isExact_of_explores (hexplores x.entry (by simp)) hnumbers
    rw [treeOf_eq hparse, ← hbody _ (hvisits.passes hfinal).1, ← hmain] at hexact
    exact hexact
  · intro i s hs
    exact ⟨_, hlookup i s hs,
      isExact_of_explores (hexplores s (by simp [List.mem_of_getElem? hs])) hnumbers⟩

theorem ringProject_exact :
    ∃ graph, ringProject.graph = .ok graph ∧
      ∃ scripts, graph.found.parsed = ringProject.entry.path :: scripts.map Location.path ∧
        graph.found.table = numbered 1 scripts ∧
        ringProject.IsExact graph.found ringProject.entry graph.main ∧
        ∀ i s, scripts[i]? = some s →
          ∃ tree, graph.found.trees.lookup (i + 1) = some tree ∧
            ringProject.IsExact graph.found s tree := by
  rcases ringProject_succeeds with ⟨graph, hgraph⟩
  exact ⟨graph, hgraph, graph_exact hgraph⟩

end LuaBundle
