import LuaBundle.Proofs.Bundle.Builds
import LuaBundle.Proofs.Bundle.Scoped
import LuaBundle.Proofs.Printing.Readable
import LuaBundle.Proofs.Tree.Flat

/-!
# Bodies of bundles

A bundle that is assembled from the rewritten trees of scripts is readable, as the scripts
are: what the bundle adds is well-formed, has no faults, and is marked as it has to be.
-/

namespace LuaBundle
namespace Lua

open Text

/-!
## Chunks of scripts and of bundles
-/

/-- A chunk that a source of characters or of bytes holds. -/
inductive IsParsed : Encoding → Chunk → Prop where
  | text {source c} (h : parse .utf8 source = .ok c) : IsParsed .utf8 c
  | bytes {bytes c} (h : parseBytes bytes = .ok c) : IsParsed .bytes c

/-- A chunk of a source with its calls of `require` replaced by number. -/
inductive IsRewritten (encoding : Encoding) : Chunk → Prop where
  | intro {c} (number : String → Nat) (hparsed : IsParsed encoding c)
      (hpassable : Passable (blockStops c.body)) :
      IsRewritten encoding { c with body := rewriteBlock number c.body }

/-- A chunk of a source, or of a bundle of such chunks. -/
inductive IsProduced (encoding : Encoding) : Chunk → Prop where
  | parsed {c} (h : IsParsed encoding c) : IsProduced encoding c
  | assembled {table trees main}
      (htrees : ∀ entry ∈ trees, IsRewritten encoding entry.2)
      (hmain : IsRewritten encoding main) : IsProduced encoding (assemble table trees main)

theorem IsParsed.readable {encoding : Encoding} {c : Chunk} (h : IsParsed encoding c) :
    Readable encoding [] c.body := by
  cases h with
  | text h => exact readable_of_parse (List.all_eq_true.mpr fun _ _ => rfl) h
  | bytes h => exact readable_of_parse (ofBytes_admitted _) h

theorem IsRewritten.readable {encoding : Encoding} {c : Chunk} {scope : List String}
    (h : IsRewritten encoding c) (hscope : Shields [] scope) : Readable encoding scope c.body := by
  cases h with
  | intro number hparsed hpassable =>
      have hbody := hparsed.readable
      exact ⟨block_wellFormed_rewrite number _ hbody.wellFormed,
        block_faults_rewrite number true _ hbody.faultless,
        block_settled_rewrite number hscope _ hbody.wellFormed hpassable hbody.settled⟩

/-!
## What a bundle adds
-/

def bundleScope : List String :=
  [cacheName, packagesName, loaderName]

theorem ne_of_not_reserved {n : Name} (hn : ¬IsReserved n) {name : String}
    (hname : name ∈ bundleScope) : n.text ≠ name := by
  have hreserved : ∀ name ∈ bundleScope, reservedStart.toList.isPrefixOf name.toList = true := by
    decide
  rintro rfl
  exact hn (hreserved _ hname)

theorem shields_bundleScope : Shields [] bundleScope where
  same n hn := by
    rw [List.contains_nil, Bool.eq_false_iff]
    intro hmem
    exact ne_of_not_reserved hn (List.contains_iff_mem.mp hmem) rfl
  loader := by decide

theorem shields_loader : Shields [] [loaderName] where
  same n hn := by
    rw [List.contains_nil, Bool.eq_false_iff]
    intro hmem
    rw [List.contains_iff_mem, List.mem_singleton] at hmem
    exact ne_of_not_reserved hn (by simp [bundleScope]) hmem
  loader := by decide

def packageFields (modules : List (Nat × Chunk)) : List Field :=
  modules.map fun m => factoryField m.1 m.2.body

theorem packageFields_cons (m : Nat × Chunk) (rest : List (Nat × Chunk)) :
    packageFields (m :: rest) = factoryField m.1 m.2.body :: packageFields rest :=
  rfl

theorem preamble_eq (modules : List (Nat × Chunk)) :
    preamble modules =
      [localStat loaderName [],
        localStat packagesName [.table (packageFields modules)],
        localStat cacheName [.table []],
        .assign [localRef loaderName] [loader]] :=
  rfl

section Added

variable {encoding : Encoding} {modules : List (Nat × Chunk)}

theorem spelled_generated (encoding : Encoding) : ∀ name ∈
    [loaderName, packagesName, cacheName, "id", "cached", "loaded"],
      Spelled encoding .name name := by
  have halone : ∀ name ∈ [loaderName, packagesName, cacheName, "id", "cached", "loaded"],
      Alone .name name ∧ (name.toList.all fun c => c.toNat < 0x100) = true := by
    unfold Alone
    decide
  exact fun name hname => spelled_of_ascii (halone name hname).1 (halone name hname).2

theorem loader_wellFormed (encoding : Encoding) : loader.WellFormed encoding false := by
  have hspelled := spelled_generated encoding
  simp only [List.forall_mem_cons] at hspelled
  simp [loader, loaderBody, Expr.WellFormed, Parameters, localRef, blockWellFormed, localStat,
    Stat.WellFormed, LocalVar.WellFormed, exprsWellFormed, resultSlot, Expr.isRest, whenStat,
    choiceClauses, furtherClauses, clausesWellFormed, Clause.WellFormed, Stat.isLast, callExpr,
    Args.WellFormed, Expr.isTarget, hspelled]

theorem factoryField_wellFormed (encoding : Encoding) (id : Nat) {body : List Stat}
    (h : blockWellFormed encoding body) : (factoryField id body).WellFormed encoding :=
  ⟨spelled_toString encoding id, rfl, h⟩

theorem preamble_wellFormed {main : List Stat}
    (hmodules : ∀ m ∈ modules, blockWellFormed encoding m.2.body)
    (hmain : blockWellFormed encoding main) :
    blockWellFormed encoding (preamble modules ++ main) := by
  have hspelled := spelled_generated encoding
  simp only [List.forall_mem_cons] at hspelled
  have hfields : fieldsWellFormed encoding (packageFields modules) := by
    rw [fieldsWellFormed_iff, packageFields, List.forall_mem_map]
    exact fun m hm => factoryField_wellFormed encoding m.1 (hmodules m hm)
  simp [preamble_eq, blockWellFormed, localStat, Stat.WellFormed, LocalVar.WellFormed,
    exprsWellFormed, Expr.WellFormed, hspelled, hfields, fieldsWellFormed, Stat.isLast,
    Expr.isTarget, localRef, loader_wellFormed, hmain]

theorem loader_faults (encoding : Encoding) (rest : Bool) : loader.faults encoding rest = [] :=
  rfl

theorem numberExpr_faults (encoding : Encoding) (rest : Bool) (n : Nat) :
    (numberExpr n).faults encoding rest = [] := by
  rcases numeralValue_toString n with ⟨x, hx⟩
  simp only [numberExpr, Expr.faults, Numeral.faults, hx]

theorem preamble_faultless {main : List Stat}
    (hmodules : ∀ m ∈ modules, blockFaults encoding true m.2.body = [])
    (hmain : blockFaults encoding true main = []) :
    blockFaults encoding true (preamble modules ++ main) = [] := by
  have hfields : fieldFaults encoding true (packageFields modules) = [] := by
    induction modules with
    | nil => rfl
    | cons m rest ih =>
        have hbody : (factory m.2.body).faults encoding true = [] := hmodules m (by simp)
        rw [packageFields_cons, fieldFaults, ih fun m hm => hmodules m (by simp [hm])]
        simp only [factoryField, Field.faults, numberExpr_faults, hbody, List.append_nil]
  simp [preamble_eq, blockFaults, localStat, Stat.faults, LocalVar.faults, exprFaults,
    Expr.faults, hfields, fieldFaults, localRef, loader_faults, hmain]

theorem loader_settled : (loader.stripped .binary).resolve bundleScope = loader.unlined :=
  rfl

theorem factoryField_settled (id : Nat) {scope : List String} {body : List Stat}
    (h : Settled scope body) :
    ((factoryField id body).stripped .binary).resolve scope = (factoryField id body).unlined :=
  congrArg (fun body => Field.keyed (numberExpr id) (.function [.vararg false 0] body)) h

theorem settled_cons {scope : List String} {s : Stat} {rest : List Stat} :
    Settled scope (s :: rest) ↔ ((s.stripped .binary).resolve scope).1 = s.unlined ∧
      Settled ((s.stripped .binary).resolve scope).2 rest := by
  simp only [Settled, strippedBlock, resolveBlock, unlinedBlock, List.cons.injEq]

theorem preamble_settled {main : List Stat}
    (hmodules : ∀ m ∈ modules, Settled [loaderName] m.2.body) (hmain : Settled bundleScope main) :
    Settled [] (preamble modules ++ main) := by
  have hfields : resolveFields [loaderName] (strippedFields .binary (packageFields modules)) =
      unlinedFields (packageFields modules) := by
    induction modules with
    | nil => rfl
    | cons m rest ih =>
        simp only [packageFields_cons, strippedFields, resolveFields, unlinedFields,
          ih fun m hm => hmodules m (by simp [hm]), factoryField_settled m.1 (hmodules m (by simp))]
  refine settled_cons.mpr ⟨rfl, settled_cons.mpr ⟨?_, settled_cons.mpr ⟨rfl, ?_⟩⟩⟩
  · exact congrArg (fun fields => localStat packagesName [.table fields]) hfields
  · exact settled_cons.mpr ⟨congrArg (fun e => Stat.assign [localRef loaderName] [e])
      loader_settled,
      hmain⟩

theorem preamble_readable {main : List Stat}
    (hmodules : ∀ m ∈ modules, Readable encoding [loaderName] m.2.body)
    (hmain : Readable encoding bundleScope main) :
    Readable encoding [] (preamble modules ++ main) where
  wellFormed := preamble_wellFormed (fun m hm => (hmodules m hm).wellFormed) hmain.wellFormed
  faultless := preamble_faultless (fun m hm => (hmodules m hm).faultless) hmain.faultless
  settled := preamble_settled (fun m hm => (hmodules m hm).settled) hmain.settled

end Added

theorem mem_numberedTrees {table : ModuleTable} {trees : ModuleTrees} {m : Nat × Chunk}
    (h : m ∈ numberedTrees table trees) : m ∈ trees := by
  rcases List.mem_filterMap.mp h with ⟨id, _, hlookup⟩
  rcases Option.map_eq_some_iff.mp hlookup with ⟨tree, htree, rfl⟩
  rcases mem_of_lookup htree with ⟨id', hmem, heq⟩
  rwa [eq_of_beq heq]

theorem IsProduced.readable {encoding : Encoding} {c : Chunk} (h : IsProduced encoding c) :
    Readable encoding [] c.body := by
  cases h with
  | parsed h => exact h.readable
  | assembled htrees hmain =>
      exact preamble_readable
        (fun m hm => (htrees m (mem_numberedTrees hm)).readable shields_loader)
        (hmain.readable shields_bundleScope)

end Lua

open Lua

/-!
## Bundles of projects
-/

def ModuleGraph.chunk (graph : ModuleGraph) : Chunk :=
  assemble graph.found.table graph.found.trees graph.main

def FileSystem.HoldsChunk (fs : FileSystem) (p : Path) (c : Chunk) : Prop :=
  ∃ bytes, fs.read p = .ok bytes ∧ parseBytes bytes = .ok c

theorem holdsChunk_of_parse {x : Explorer} {s : Location} {c : Chunk} (h : x.parse s = .ok c) :
    x.files.HoldsChunk s.path c := by
  unfold Explorer.parse at h
  split at h
  · cases h
  · rename_i bytes hread
    cases hbytes : parseBytes bytes with
    | error e =>
        rw [hbytes] at h
        cases h
    | ok chunk =>
        rw [hbytes] at h
        cases h
        exact ⟨bytes, hread, hbytes⟩

theorem isParsed_of_parse {x : Explorer} {s : Location} {c : Chunk} (h : x.parse s = .ok c) :
    IsParsed .bytes c := by
  rcases holdsChunk_of_parse h with ⟨_, _, hbytes⟩
  exact .bytes hbytes

theorem passable_of_passes {x : Explorer} {final : Discovery} {s : Location}
    {stops : List WalkStop} (h : ∀ stop ∈ stops, x.Passes final s stop) : Passable stops := by
  intro stop hstop
  have hpasses := h stop hstop
  rcases stop with call | n
  · cases call with
    | module name line => trivial
    | unsupported line => exact hpasses
  · exact hpasses

theorem isRewritten_of_explores {x : Explorer} {final : Discovery} {s : Location}
    (h : x.Explores final s) : IsRewritten .bytes (x.treeOf final s) := by
  rcases h with ⟨c, hparse, hpasses⟩
  rw [treeOf_eq hparse]
  exact .intro _ (isParsed_of_parse hparse) (passable_of_passes hpasses)

theorem isProduced_of_graph {x : Explorer} {graph : ModuleGraph} (h : x.graph = .ok graph) :
    IsProduced .bytes graph.chunk := by
  rcases graph_holds h with ⟨scripts, hholds⟩
  refine .assembled ?_ ?_
  · intro entry hentry
    rcases List.mem_map.mp (hholds.trees.subset hentry) with ⟨⟨s, id⟩, hs, rfl⟩
    exact isRewritten_of_explores
      (hholds.explores s (List.mem_cons_of_mem _ (List.fst_mem_of_mem_zipIdx hs)))
  · rw [hholds.main]
    exact isRewritten_of_explores (hholds.explores x.entry List.mem_cons_self)

/-- The entry of a project: names that a bundle has, too, operations in groups, and a byte that
is not UTF-8. -/
def shadowMain : Text.Bytes :=
  Text.utf8 "local id = require 'lib' ;(id or loaded)('".toList
    ++ 0xFF :: Text.utf8 "', 1 - (2 - 3)) return (require \"lib\")".toList

def shadowLib : Text.Bytes :=
  Text.utf8 "local t = \x7b'".toList
    ++ 0xFE :: Text.utf8 "', ...\x7d function t.f(...) local require = t return (...) end return t".toList

def shadowProject : Explorer where
  files := { entries := [(["main.lua"], .file shadowMain), (["lib.lua"], .file shadowLib)] }
  resolver := { extension := "lua", entryDir := ⟨"/"⟩, dependencyRoots := [⟨"/node_modules"⟩] }
  entry := { path := ⟨"/main.lua"⟩, directory := ⟨"/"⟩ }

theorem shadowProject_succeeds :
    ∃ graph, shadowProject.graph = .ok graph ∧ Flat graph.chunk.body ∧
      ∀ name ∈ blockNames graph.chunk.body, isAsciiName name = true := by
  have hany : (shadowProject.graph.toOption.any fun graph =>
      decide (Flat graph.chunk.body) && (blockNames graph.chunk.body).all isAsciiName) = true := by
    decide +kernel
  cases hgraph : shadowProject.graph with
  | error e =>
      rw [hgraph] at hany
      cases hany
  | ok graph =>
      rw [hgraph] at hany
      simp only [Except.toOption, Option.any_some, Bool.and_eq_true, decide_eq_true_eq,
        List.all_eq_true] at hany
      exact ⟨graph, rfl, hany⟩

end LuaBundle
