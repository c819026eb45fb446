import LuaBundle.Bundle.Loader
import LuaBundle.Merge
import LuaBundle.Path

/-!
# Assembling a bundle

The trees of numbered modules and of the entry become one chunk: the loader and the
functions of the modules in the order of their numbers, then the statements of the entry.
-/

namespace LuaBundle

open Lua

/-!
## Numbered modules

Modules are entered in the order in which they are met.  An entry replaces an older one of the
same key.
-/

/-- The paths of modules and their numbers, in the order in which the paths were entered. -/
abbrev ModuleTable := List (Path × Nat)

def ModuleTable.insert (table : ModuleTable) (p : Path) (id : Nat) : ModuleTable :=
  if table.any fun entry => entry.1 == p then
    table.map fun entry => if entry.1 == p then (entry.1, id) else entry
  else
    table ++ [(p, id)]

def ModuleTable.ids (table : ModuleTable) : List Nat :=
  addNew [] ((table.map (·.2)).mergeSort fun a b => a ≤ b)

/-- The trees of modules by their numbers.  Of two trees for one number the first counts. -/
abbrev ModuleTrees := List (Nat × Chunk)

def ModuleTrees.insert (trees : ModuleTrees) (id : Nat) (tree : Chunk) : ModuleTrees :=
  (id, tree) :: trees.filter fun entry => entry.1 != id

/-!
## The bundle
-/

/-- The modules that have a number in the table and a tree, in the order of their
numbers. -/
def numberedTrees (table : ModuleTable) (trees : ModuleTrees) : List (Nat × Chunk) :=
  table.ids.filterMap fun id => (trees.lookup id).map fun tree => (id, tree)

def preamble (modules : List (Nat × Chunk)) : List Stat :=
  [localStat loaderName [],
    localStat packagesName [.table (modules.map fun (id, tree) => factoryField id tree.body)],
    localStat cacheName [.table []],
    .assign [localRef loaderName] [loader]]

def assemble (table : ModuleTable) (trees : ModuleTrees) (main : Chunk) : Chunk :=
  let modules := numberedTrees table trees
  { body := preamble modules ++ main.body
    comments := modules.flatMap (·.2.comments) ++ main.comments
    globals := addNew [] (modules.flatMap (·.2.globals) ++ main.globals) }

end LuaBundle
