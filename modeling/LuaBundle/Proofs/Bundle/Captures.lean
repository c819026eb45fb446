import LuaBundle.Proofs.Bundle.Assembled
import LuaBundle.Proofs.Bundle.Carried
import LuaBundle.Proofs.Merge

/-!
# Bundles capture no names

In a bundle every reference of a script means the declaration that it means in the script,
or is free as it is there, and what the bundle adds means its own declarations.
-/

namespace LuaBundle
namespace Lua

open Text

/-!
## Links in a bundle

The links of a bundle are those of the modules in order, of the loader, and of the entry, each
moved behind the declarations that stand before it.
-/

theorem blockDeclarations_append (front back : List Stat) :
    blockDeclarations (front ++ back) = blockDeclarations front ++ blockDeclarations back := by
  induction front with
  | nil => rfl
  | cons s rest ih =>
      rw [List.cons_append, blockDeclarations, blockDeclarations, ih, List.append_assoc]

/-- The links of the modules of a bundle, in which their declarations start at a place. -/
def moduleLinks (place : Nat) : List Chunk → List Link
  | [] => []
  | c :: rest =>
      (blockLinks [] 0 c.body).map (Link.carried place 0) ++
        moduleLinks (place + (blockDeclarations c.body).length) rest

/-- The place of the declaration of the table of results behind the modules. -/
def cachePlace (files : List Chunk) : Nat :=
  2 + (files.flatMap fun c => blockDeclarations c.body).length

def loaderLinks (place : Nat) : List Link :=
  let id := Link.use "id" (some (place + 1))
  let cached := Link.use "cached" (some (place + 2))
  let loaded := Link.use "loaded" (some (place + 3))
  let cache := Link.use cacheName (some place)
  [.use loaderName (some 0), id, cache, id, cached, cached, .use packagesName (some 1), id, loaded,
    loaded, cache, id, loaded, loaded]

def entryScope (place : Nat) : LinkScope :=
  [(cacheName, place), (packagesName, 1), (loaderName, 0)]

section Preamble

variable {modules : List (Nat × Chunk)} {main : List Stat}

theorem packageFields_declarations (modules : List (Nat × Chunk)) :
    fieldDeclarations (packageFields modules) =
      modules.flatMap fun m => blockDeclarations m.2.body := by
  induction modules with
  | nil => rfl
  | cons m rest ih =>
      rw [packageFields_cons, fieldDeclarations, ih, List.flatMap_cons]
      rfl

theorem preamble_declarations (modules : List (Nat × Chunk)) (main : List Stat) :
    blockDeclarations (preamble modules ++ main) =
      [loaderName, packagesName] ++ (modules.flatMap fun m => blockDeclarations m.2.body) ++
        ([cacheName, "id", "cached", "loaded"] ++ blockDeclarations main) := by
  rw [← packageFields_declarations, blockDeclarations_append]
  simp [preamble_eq, localStat, blockDeclarations, Stat.declarations, exprDeclarations,
    Expr.declarations, fieldDeclarations, localRef, loader, parameterNames, loaderBody,
    resultSlot, whenStat, clauseDeclarations, Clause.declarations, callExpr, Args.declarations]

theorem preamble_links (modules : List (Nat × Chunk)) (main : List Stat) (place : Nat)
    (hplace : place = 2 + (modules.flatMap fun m => blockDeclarations m.2.body).length) :
    blockLinks [] 0 (preamble modules ++ main) =
      fieldLinks [(loaderName, 0)] 2 (packageFields modules) ++
        (loaderLinks place ++ blockLinks (entryScope place) (place + 4) main) := by
  have hloader : blockLinks [(packagesName, 1), (loaderName, 0)] place
      ([localStat cacheName [.table []], .assign [localRef loaderName] [loader]] ++ main) =
      loaderLinks place ++ blockLinks (entryScope place) (place + 4) main := rfl
  have hpackages : 0 + 1 +
      (localStat packagesName [.table (packageFields modules)]).declarations.length = place := by
    rw [← packageFields_declarations] at hplace
    simp only [localStat, Stat.declarations, exprDeclarations, Expr.declarations, List.map_cons,
      List.map_nil, List.append_nil, List.length_append, List.length_cons, List.length_nil, hplace]
    omega
  rw [← hloader, ← hpackages]
  simp only [preamble_eq, localStat, List.cons_append, List.nil_append, blockLinks, Stat.links,
    exprLinks, Expr.links, List.append_nil]
  rfl

end Preamble

/-!
## Free names
-/

def freeLinks (links : List Link) : List String :=
  (links.filter fun l => l.target.isNone).map Link.name

theorem freeLinks_append (front back : List Link) :
    freeLinks (front ++ back) = freeLinks front ++ freeLinks back := by
  rw [freeLinks, List.filter_append, List.map_append]
  rfl

theorem freeNames_eq {body : List Stat} {links : List Link}
    (h : blockReferences body = links.map Link.marked) :
    freeNames body = addNew [] (freeLinks links) := by
  have hfree : ((fun n : Name => !n.isLocal) ∘ Link.marked) = fun l => l.target.isNone := by
    funext l
    simp [Link.marked]
  rw [freeNames, h, List.filter_map, List.map_map, hfree]
  rfl

/-- A name other than that of the calls. -/
def isKept (name : String) : Bool :=
  name != "require"

theorem freeLinks_carried (place loaderPlace : Nat) (links : List Link) :
    (freeLinks (links.map (Link.carried place loaderPlace))).filter isKept =
      (freeLinks links).filter isKept := by
  induction links with
  | nil => rfl
  | cons l rest ih =>
      have hsplit : l :: rest = [l] ++ rest := rfl
      rw [hsplit, List.map_append, freeLinks_append, freeLinks_append, List.filter_append,
        List.filter_append, ih]
      congr 1
      cases l with
      | use name target => cases target <;> rfl
      | module target => cases target <;> rfl

theorem freeLinks_modules (place : Nat) (files : List Chunk) :
    (freeLinks (moduleLinks place files)).filter isKept =
      (files.flatMap fun c => freeLinks (blockLinks [] 0 c.body)).filter isKept := by
  induction files generalizing place with
  | nil => rfl
  | cons c rest ih =>
      rw [moduleLinks, freeLinks_append, List.filter_append, ih, freeLinks_carried,
        List.flatMap_cons, List.filter_append]

/-!
## Scripts in a bundle
-/

/-- Whether scripts have their own scopes in a bundle, the entry behind the modules. -/
structure KeepsScopes (main : Chunk) (modules : List Chunk) (bundle : Chunk) : Prop where
  /-- The declarations are those of the scripts and of what is put around them. -/
  declarations : blockDeclarations bundle.body =
    [loaderName, packagesName] ++ (modules.flatMap fun c => blockDeclarations c.body) ++
      ([cacheName, "id", "cached", "loaded"] ++ blockDeclarations main.body)
  /-- In a script of its own, every reference means a declaration of the script or none. -/
  scripts : ∀ c ∈ main :: modules,
    blockReferences c.body = (blockLinks [] 0 c.body).map Link.marked ∧
      Named (blockDeclarations c.body) (blockLinks [] 0 c.body)
  /-- It means the same in the bundle, and what is put in or around means the loader and the
  tables of the bundle. -/
  links : blockLinks [] 0 bundle.body =
    moduleLinks 2 modules ++ (loaderLinks (cachePlace modules) ++
      (blockLinks [] 0 main.body).map (Link.carried (cachePlace modules + 4) 0))
  named : Named (blockDeclarations bundle.body) (blockLinks [] 0 bundle.body)
  /-- The marks are those that the rules of scope give to the bundle as one program. -/
  settled : Settled [] bundle.body
  marks : blockReferences bundle.body = (blockLinks [] 0 bundle.body).map Link.marked
  /-- There is no fault, thus no `...` where no further arguments are taken. -/
  faultless : blockFaults .bytes true bundle.body = []
  free : (freeNames bundle.body).filter isKept = bundle.globals.filter isKept

section Scripts

variable {number : String → Nat} {c : Chunk}

theorem carries_module (place : Nat) :
    LinkScope.Carries place 0 [] [(loaderName, 0)] where
  moved n hn := by
    have hne := ne_of_not_reserved hn (by simp [bundleScope] : loaderName ∈ bundleScope)
    rw [List.lookup_cons, beq_eq_false_iff_ne.mpr hne]
    rfl
  loader := rfl

theorem carries_entry (place cache : Nat) :
    LinkScope.Carries place 0 [] (entryScope cache) where
  moved n hn := by
    have hne : ∀ name ∈ bundleScope, (n.text == name) = false :=
      fun name hname => beq_eq_false_iff_ne.mpr (ne_of_not_reserved hn hname)
    simp only [bundleScope, List.forall_mem_cons] at hne
    simp [entryScope, List.lookup_cons, hne]
  loader := rfl

theorem factory_links (place id : Nat) (hparsed : IsParsed .bytes c)
    (hpassable : Passable (blockStops c.body)) :
    (factoryField id (rewriteBlock number c.body)).links [(loaderName, 0)] place =
      (blockLinks [] 0 c.body).map (Link.carried place 0) := by
  rw [← block_links_carried number (carries_module place) 0 c.body hparsed.readable.wellFormed
    hpassable, Nat.zero_add]
  rfl

end Scripts

end Lua

open Lua

section Bundles

variable {x : Explorer} {final : Discovery}

def Explorer.chunkOf (x : Explorer) (s : Location) : Chunk :=
  match x.parse s with
  | .ok chunk => chunk
  | .error _ => {}

theorem chunkOf_eq {s : Location} {chunk : Chunk} (h : x.parse s = .ok chunk) :
    x.chunkOf s = chunk := by
  rw [Explorer.chunkOf, h]

theorem chunkOf_of_explores {s : Location} (h : x.Explores final s) :
    x.parse s = .ok (x.chunkOf s) ∧ IsParsed .bytes (x.chunkOf s) ∧
      Passable (blockStops (x.chunkOf s).body) ∧
      x.treeOf final s = { x.chunkOf s with
        body := rewriteBlock (x.numberOf final s) (x.chunkOf s).body } := by
  rcases h with ⟨chunk, hparse, hpasses⟩
  rw [chunkOf_eq hparse]
  exact ⟨hparse, isParsed_of_parse hparse, passable_of_passes hpasses, treeOf_eq hparse⟩

theorem treesFrom_cons (first : Nat) (s : Location) (rest : List Location) :
    x.treesFrom final first (s :: rest) =
      (first, x.treeOf final s) :: x.treesFrom final (first + 1) rest :=
  rfl

theorem treesFrom_flatMap {scripts : List Location} {f g : Chunk → List β} (first : Nat)
    (h : ∀ s ∈ scripts, f (x.treeOf final s) = g (x.chunkOf s)) :
    ((x.treesFrom final first scripts).flatMap fun m => f m.2) =
      (scripts.map x.chunkOf).flatMap g := by
  induction scripts generalizing first with
  | nil => rfl
  | cons s rest ih =>
      rw [treesFrom_cons, List.flatMap_cons, List.map_cons, List.flatMap_cons,
        ih _ fun s hs => h s (List.mem_cons_of_mem _ hs), h s List.mem_cons_self]

theorem treesFrom_declarations {scripts : List Location} (first : Nat)
    (h : ∀ s ∈ scripts, x.Explores final s) :
    ((x.treesFrom final first scripts).flatMap fun m => blockDeclarations m.2.body) =
      (scripts.map x.chunkOf).flatMap fun c => blockDeclarations c.body := by
  refine treesFrom_flatMap (f := fun c => blockDeclarations c.body) first fun s hs => ?_
  rcases chunkOf_of_explores (h s hs) with ⟨_, hparsed, _, htree⟩
  rw [htree]
  exact block_declarations_rewrite _ _ hparsed.readable.wellFormed

theorem treesFrom_links {scripts : List Location} (first place : Nat)
    (h : ∀ s ∈ scripts, x.Explores final s) :
    fieldLinks [(loaderName, 0)] place (packageFields (x.treesFrom final first scripts)) =
      moduleLinks place (scripts.map x.chunkOf) := by
  induction scripts generalizing first place with
  | nil => rfl
  | cons s rest ih =>
      rcases chunkOf_of_explores (h s (by simp)) with ⟨_, hparsed, hpassable, htree⟩
      have hdeclarations : (factoryField first (x.treeOf final s).body).declarations =
          blockDeclarations (x.chunkOf s).body := by
        rw [htree]
        exact block_declarations_rewrite _ _ hparsed.readable.wellFormed
      rw [treesFrom_cons, packageFields_cons, fieldLinks, hdeclarations,
        ih _ _ fun s hs => h s (by simp [hs]), htree, factory_links place first hparsed hpassable]
      rfl

theorem treesFrom_globals {scripts : List Location} (first : Nat)
    (h : ∀ s ∈ scripts, x.Explores final s) :
    ((x.treesFrom final first scripts).flatMap fun m => m.2.globals) =
      (scripts.map x.chunkOf).flatMap Chunk.globals := by
  refine treesFrom_flatMap first fun s hs => ?_
  rcases chunkOf_of_explores (h s hs) with ⟨_, _, _, htree⟩
  rw [htree]

theorem script_marks {c : Chunk} (h : IsParsed .bytes c) :
    blockReferences c.body = (blockLinks [] 0 c.body).map Link.marked :=
  block_links_marked covers_nil 0 c.body h.readable.wellFormed h.readable.settled

theorem script_globals {c : Chunk} (h : IsParsed .bytes c) :
    c.globals = addNew [] (freeLinks (blockLinks [] 0 c.body)) := by
  rw [← freeNames_eq (script_marks h)]
  cases h with
  | bytes h =>
      rcases parse_ok h with ⟨_, _, _, _, _, _, hglobals⟩
      exact hglobals

variable {graph : ModuleGraph} {scripts : List Location}

theorem ModuleGraph.Holds.body (h : graph.Holds x scripts) :
    graph.chunk.body = preamble (x.treesFrom graph.found 1 scripts) ++
      rewriteBlock (x.numberOf graph.found x.entry) (x.chunkOf x.entry).body := by
  have hmain := (chunkOf_of_explores (h.explores x.entry (by simp))).2.2.2
  rw [ModuleGraph.chunk, assemble, h.numberedTrees, h.main, hmain]

theorem ModuleGraph.Holds.globals (h : graph.Holds x scripts) :
    graph.chunk.globals = addNew []
      ((scripts.map x.chunkOf ++ [x.chunkOf x.entry]).flatMap Chunk.globals) := by
  have hmain := (chunkOf_of_explores (h.explores x.entry (by simp))).2.2.2
  rw [ModuleGraph.chunk, assemble, h.numberedTrees, h.main, hmain,
    treesFrom_globals _ fun s hs => h.explores s (by simp [hs]), List.flatMap_append,
    List.flatMap_singleton]

/-- The names that are free in a bundle are those that are recorded, but for that of the calls. -/
theorem freeNames_bundle {main : Chunk} {files : List Chunk} {body : List Stat} {place : Nat}
    (hparsed : ∀ c ∈ main :: files, IsParsed .bytes c)
    (hmarks : blockReferences body = (moduleLinks 2 files ++ (loaderLinks place ++
      (blockLinks [] 0 main.body).map (Link.carried (place + 4) 0))).map Link.marked) :
    (freeNames body).filter isKept =
      (addNew [] ((files ++ [main]).flatMap Chunk.globals)).filter isKept := by
  have hglobals : (files ++ [main]).flatMap Chunk.globals =
      ((files ++ [main]).map fun c => freeLinks (blockLinks [] 0 c.body)).flatMap (addNew []) := by
    rw [List.flatMap_map]
    refine List.flatMap_congr fun c hc => script_globals (hparsed c ?_)
    rcases List.mem_append.mp hc with hc | hc
    · exact List.mem_cons_of_mem _ hc
    · exact List.mem_cons.mpr (Or.inl (List.mem_singleton.mp hc))
  have hloader : freeLinks (loaderLinks place) = [] := rfl
  rw [freeNames_eq hmarks, hglobals, addNew_flatMap, filter_addNew, filter_addNew,
    freeLinks_append, freeLinks_append, hloader, List.nil_append, List.filter_append,
    freeLinks_modules, freeLinks_carried, ← List.filter_append, ← List.flatMap_def,
    List.flatMap_append, List.flatMap_singleton]

end Bundles

/-- A bundle captures no names. -/
theorem graph_keepsScopes {x : Explorer} {graph : ModuleGraph} (h : x.graph = .ok graph) :
    ∃ scripts, graph.found.parsed = x.entry.path :: scripts.map Location.path ∧
      graph.found.table = numbered 1 scripts ∧
      (∀ s ∈ x.entry :: scripts, x.parse s = .ok (x.chunkOf s)) ∧
      KeepsScopes (x.chunkOf x.entry) (scripts.map x.chunkOf) graph.chunk := by
  rcases graph_holds h with ⟨scripts, hholds⟩
  have hreadable := (isProduced_of_graph h).readable
  have hexplores : ∀ s ∈ scripts, x.Explores graph.found s :=
    fun s hs => hholds.explores s (List.mem_cons_of_mem _ hs)
  rcases chunkOf_of_explores (hholds.explores x.entry List.mem_cons_self) with
    ⟨_, hmain, hpassable, _⟩
  have hparsed : ∀ c ∈ x.chunkOf x.entry :: scripts.map x.chunkOf, IsParsed .bytes c := by
    rw [List.forall_mem_cons, List.forall_mem_map]
    exact ⟨hmain, fun s hs => (chunkOf_of_explores (hexplores s hs)).2.1⟩
  have hmodules := treesFrom_declarations 1 hexplores
  have hplace : cachePlace (scripts.map x.chunkOf) = 2 +
      ((x.treesFrom graph.found 1 scripts).flatMap fun m => blockDeclarations m.2.body).length := by
    rw [cachePlace, hmodules]
  have hlinks : blockLinks [] 0 graph.chunk.body =
      moduleLinks 2 (scripts.map x.chunkOf) ++
        (loaderLinks (cachePlace (scripts.map x.chunkOf)) ++
          (blockLinks [] 0 (x.chunkOf x.entry).body).map
            (Link.carried (cachePlace (scripts.map x.chunkOf) + 4) 0)) := by
    have hentry := block_links_carried (x.numberOf graph.found x.entry)
      (carries_entry (cachePlace (scripts.map x.chunkOf) + 4)
        (cachePlace (scripts.map x.chunkOf))) 0 _ hmain.readable.wellFormed hpassable
    rw [Nat.zero_add] at hentry
    rw [hholds.body, preamble_links _ _ _ hplace, treesFrom_links 1 2 hexplores, hentry]
  have hmarks := block_links_marked covers_nil 0 _ hreadable.wellFormed hreadable.settled
  refine ⟨scripts, hholds.parsed, hholds.table, ?_, ?_⟩
  · exact fun s hs => (chunkOf_of_explores (hholds.explores s hs)).1
  constructor
  case declarations =>
    rw [hholds.body, preamble_declarations, hmodules,
      block_declarations_rewrite _ _ hmain.readable.wellFormed]
  case scripts => exact fun c hc => ⟨script_marks (hparsed c hc), program_links_named c.body⟩
  case links => exact hlinks
  case named => exact program_links_named _
  case settled => exact hreadable.settled
  case marks => exact hmarks
  case faultless => exact hreadable.faultless
  case free =>
    rw [hholds.globals]
    exact freeNames_bundle hparsed (hlinks ▸ hmarks)

theorem shadowProject_keepsScopes :
    ∃ graph, shadowProject.graph = .ok graph ∧
      ∃ scripts, graph.found.parsed = shadowProject.entry.path :: scripts.map Location.path ∧
        graph.found.table = numbered 1 scripts ∧
        (∀ s ∈ shadowProject.entry :: scripts,
          shadowProject.parse s = .ok (shadowProject.chunkOf s)) ∧
        KeepsScopes (shadowProject.chunkOf shadowProject.entry)
          (scripts.map shadowProject.chunkOf) graph.chunk := by
  rcases shadowProject_succeeds with ⟨graph, hgraph, _⟩
  exact ⟨graph, hgraph, graph_keepsScopes hgraph⟩

end LuaBundle
