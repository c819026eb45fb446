import LuaBundle.Proofs.Bundle.Edges
import LuaBundle.Proofs.Bundle.Nodes

/-!
# The graph of a project

What a successful discovery has found: the modules in depth-first order, each once, with
their numbers, and an edge for every call.
-/

namespace LuaBundle

open Lua

/-!
## Calls between scripts
-/

/-- Whether a script calls `require` with a literal that leads to a location. -/
def Explorer.Calls (x : Explorer) (known : Known) (s t : Location) : Prop :=
  ∃ chunk, x.parse s = .ok chunk ∧ ∃ e ∈ blockNodes chunk.body, ∃ name line,
    requireCall? e = some (.module name line) ∧ x.leadsTo known s name = some t

section Explored

variable {x : Explorer} {final : Discovery} {s t : Location} {chunk : Chunk}

theorem supported_of_passes {stops : List WalkStop}
    (h : ∀ stop ∈ stops, x.Passes final s stop) : Supported stops := by
  intro line hline
  exact h _ hline

theorem accounts_of_passes (h : ∀ stop ∈ blockStops chunk.body, x.Passes final s stop) :
    Accounts (blockStops chunk.body) (blockNodes chunk.body) :=
  block_accounts chunk.body (supported_of_passes h)

theorem mem_next_iff (h : x.Explores final s) :
    t ∈ x.next final s ↔ x.Calls final.known s t := by
  rcases h with ⟨chunk, hparse, hpasses⟩
  have haccounts := accounts_of_passes hpasses
  simp only [Explorer.next, hparse, Explorer.called, List.mem_filterMap]
  constructor
  · rintro ⟨stop, hstop, hleads⟩
    split at hleads
    · rename_i name line
      rcases haccounts.origin _ hstop with ⟨e, he, hcall⟩
      exact ⟨chunk, hparse, e, he, name, line, hcall, hleads⟩
    · cases hleads
  · rintro ⟨chunk', hparse', e, he, name, line, hcall, hleads⟩
    rw [hparse, Except.ok.injEq] at hparse'
    subst hparse'
    exact ⟨_, haccounts.call e he _ hcall, hleads⟩

end Explored

/-!
## The run of a project
-/

theorem graph_run {x : Explorer} {graph : ModuleGraph} (h : x.graph = .ok graph) :
    ∃ start scripts answers chunk body,
      start.known = [] ∧ start.trees = [] ∧ start.table = [] ∧ start.parsed = [x.entry.path] ∧
      start.requires = ⟨[⟨x.entry.path, none⟩], []⟩ ∧ x.parse x.entry = .ok chunk ∧
      Visits x x.entry (blockStops chunk.body) start scripts answers graph.found ∧
      graph.main = { chunk with body } ∧
      ∀ number, answers.Agree number → body = rewriteBlock number chunk.body := by
  unfold Explorer.graph at h
  simp only [bind, Except.bind, pure, Except.pure] at h
  split at h
  · cases h
  · rename_i found hrun
    rcases found with ⟨main, found⟩
    simp only [Except.ok.injEq] at h
    subst h
    rcases explored_of_explore x x.depth x.entry _ main found hrun with
      ⟨chunk, scripts, answers, body, hparse, hvisits, hmain, hbody⟩
    exact ⟨_, scripts, answers, chunk, body, rfl, rfl, rfl, rfl, rfl, hparse, hvisits, hmain,
      hbody⟩

/-!
## Reading positions and numbers
-/

def Distinct (scripts : List Location) : Prop :=
  scripts.Pairwise fun s t => (t.path == s.path) = false

theorem Distinct.index_unique {scripts : List Location} (h : Distinct scripts) {i j : Nat}
    {s t : Location} (hi : scripts[i]? = some s) (hj : scripts[j]? = some t)
    (heq : (s.path == t.path) = true) : i = j := by
  rcases List.getElem?_eq_some_iff.mp hi with ⟨hi', rfl⟩
  rcases List.getElem?_eq_some_iff.mp hj with ⟨hj', rfl⟩
  rcases Nat.lt_trichotomy i j with hlt | rfl | hlt
  · have hne := List.pairwise_iff_getElem.mp h i j hi' hj' hlt
    rw [BEq.comm, heq] at hne
    cases hne
  · rfl
  · have hne := List.pairwise_iff_getElem.mp h j i hj' hi' hlt
    rw [heq] at hne
    cases hne

theorem Distinct.findIdx_iff {scripts : List Location} (h : Distinct scripts) {p : Path}
    {i : Nat} :
    (scripts.map Location.path).findIdx? (· == p) = some i ↔
      ∃ s, scripts[i]? = some s ∧ (p == s.path) = true := by
  constructor
  · intro hi
    rcases List.findIdx?_eq_some_iff_getElem.mp hi with ⟨hlt, heq, _⟩
    rw [List.length_map] at hlt
    rw [List.getElem_map] at heq
    exact ⟨scripts[i], List.getElem?_eq_getElem hlt, BEq.symm heq⟩
  · rintro ⟨s, hs, heq⟩
    rcases List.getElem?_eq_some_iff.mp hs with ⟨hlt, rfl⟩
    refine List.findIdx?_eq_some_iff_getElem.mpr ⟨by simpa using hlt, ?_, ?_⟩
    · rw [List.getElem_map]
      exact BEq.symm heq
    · intro j hj hbefore
      rw [List.getElem_map] at hbefore
      have hsame : j = i := h.index_unique (List.getElem?_eq_getElem (by omega))
        (List.getElem?_eq_getElem hlt) (BEq.trans hbefore heq)
      omega

theorem lookup_of_mem_of_nodup {a : Nat} {b : β} {pairs : List (Nat × β)}
    (hnodup : (pairs.map Prod.fst).Nodup) (h : (a, b) ∈ pairs) : pairs.lookup a = some b := by
  induction pairs with
  | nil => simp at h
  | cons pair rest ih =>
      rcases pair with ⟨a', b'⟩
      rw [List.map_cons, List.nodup_cons] at hnodup
      rcases List.mem_cons.mp h with heq | hmem
      · cases heq
        simp
      · have hne : a ≠ a' := by
          rintro rfl
          exact hnodup.1 (List.mem_map.mpr ⟨(a, b), hmem, rfl⟩)
        rw [List.lookup_cons, beq_false_of_ne hne]
        exact ih hnodup.2 hmem

theorem numbered_fst (first : Nat) (scripts : List Location) :
    (numbered first scripts).map Prod.fst = scripts.map Location.path := by
  induction scripts generalizing first with
  | nil => rfl
  | cons s rest ih => exact congrArg (s.path :: ·) (ih (first + 1))

theorem numbered_snd (first : Nat) (scripts : List Location) :
    (numbered first scripts).map Prod.snd = List.range' first scripts.length := by
  rw [← List.zipIdx_map_snd first scripts]
  simp [numbered, Function.comp_def]

theorem treesFrom_fst (x : Explorer) (final : Discovery) (first : Nat)
    (scripts : List Location) :
    (x.treesFrom final first scripts).map Prod.fst = List.range' first scripts.length := by
  rw [← List.zipIdx_map_snd first scripts]
  simp [Explorer.treesFrom, Function.comp_def]

theorem isFile_of_parse {x : Explorer} {s : Location} {chunk : Chunk}
    (h : x.parse s = .ok chunk) : x.files.isFile s.path = true := by
  unfold Explorer.parse at h
  split at h
  · cases h
  · rename_i bytes hread
    unfold FileSystem.read at hread
    simp only [bind, Except.bind] at hread
    split at hread
    · cases hread
    · rename_i place hplace
      unfold FileSystem.isFile FileSystem.find?
      rw [hplace]
      split at hread
      · rename_i hentry
        simp only [hentry]
      · cases hread
      · cases hread

/-!
## The module graph
-/

/-- What a module graph lists, for the scripts that were found besides the entry. -/
structure ModuleGraph.Lists (x : Explorer) (graph : ModuleGraph) (scripts : List Location) :
    Prop where
  entry : graph.entry = x.entry
  numbers : graph.found.table.map Prod.snd = List.range' 1 graph.found.table.length
  keys : graph.found.table.map Prod.fst = scripts.map Location.path
  distinct : Distinct scripts
  notEntry : ∀ s ∈ scripts, (s.path == x.entry.path) = false
  canonical : ∀ s ∈ scripts, s.IsCanonical x.files ∧ x.files.isFile s.path = true
  trees : (graph.found.trees.map Prod.fst).Perm (List.range' 1 graph.found.table.length)
  /-- Every script is read once. -/
  parsed : graph.found.parsed = x.entry.path :: scripts.map Location.path
  /-- The modules stand in the order of their discovery. -/
  order : Preorder (x.next graph.found) [x.entry.path] (x.next graph.found x.entry) scripts
  calls : ∀ s ∈ x.entry :: scripts, ∀ t,
    t ∈ x.next graph.found s ↔ x.Calls graph.found.known s t
  closed : ∀ s ∈ x.entry :: scripts, ∃ chunk, x.parse s = .ok chunk ∧
    ∀ e ∈ blockNodes chunk.body, ∀ call, requireCall? e = some call →
      ∃ name line t, call = .module name line ∧
        x.leadsTo graph.found.known s name = some t ∧ ∃ u ∈ scripts, (t.path == u.path) = true
  reached : ∀ s ∈ scripts,
    Relation.TransGen (Leads (x.next graph.found) scripts) x.entry s
  nodes : graph.found.requires.nodes.map GraphNode.path =
    x.entry.path :: scripts.map Location.path
  edges : ∀ i j, graph.found.requires.Joins i j ↔
    ∃ s t u, (x.entry :: scripts)[i]? = some s ∧ x.Calls graph.found.known s t ∧
      (x.entry :: scripts)[j]? = some u ∧ (t.path == u.path) = true
  simple : graph.found.requires.IsSimple

section Found

variable {x : Explorer} {graph : ModuleGraph} {start : Discovery} {scripts : List Location}
  {answers : Answers} {chunk : Chunk}

theorem table_of_run (hvisits : Visits x x.entry (blockStops chunk.body) start scripts answers
    graph.found) (htable : start.table = []) : graph.found.table = numbered 1 scripts := by
  rw [hvisits.grows.2.1, htable]
  rfl

theorem keys_of_run (hvisits : Visits x x.entry (blockStops chunk.body) start scripts answers
    graph.found) (htable : start.table = []) :
    x.keys graph.found = (x.entry :: scripts).map Location.path := by
  rw [Explorer.keys, table_of_run hvisits htable, numbered_fst]
  rfl

theorem explores_of_run (hparse : x.parse x.entry = .ok chunk)
    (hvisits : Visits x x.entry (blockStops chunk.body) start scripts answers graph.found) :
    ∀ s ∈ x.entry :: scripts, x.Explores graph.found s := by
  intro s hs
  rcases List.mem_cons.mp hs with rfl | hs
  · exact ⟨chunk, hparse, (hvisits.passes (Grown.refl _)).2⟩
  · exact (hvisits.explores (Grown.refl _) s hs).1

theorem preorder_of_run (hparse : x.parse x.entry = .ok chunk)
    (hvisits : Visits x x.entry (blockStops chunk.body) start scripts answers graph.found)
    (htable : start.table = []) :
    Preorder (x.next graph.found) [x.entry.path] (x.next graph.found x.entry) scripts := by
  have horder := hvisits.preorder (Grown.refl _) (.done _)
  have hnext :
      x.next graph.found x.entry = x.called graph.found x.entry (blockStops chunk.body) := by
    simp [Explorer.next, hparse]
  rw [hnext]
  simpa [Explorer.keys, htable] using horder

theorem distinct_of_preorder {next : Location → List Location} {todo : List Location}
    (h : Preorder next [x.entry.path] todo scripts) : Distinct (x.entry :: scripts) := by
  rcases h.distinct with ⟨hnew, hpairs⟩
  exact List.pairwise_cons.mpr ⟨fun s hs => hnew s hs _ (by simp), hpairs⟩

theorem links_iff {s : Location} {i j : Nat} (hdistinct : Distinct (x.entry :: scripts))
    (hkeys : x.keys graph.found = (x.entry :: scripts).map Location.path)
    (hs : s ∈ x.entry :: scripts) :
    x.Links graph.found s (x.next graph.found s) i j ↔
      ∃ t u, (x.entry :: scripts)[i]? = some s ∧ t ∈ x.next graph.found s ∧
        (x.entry :: scripts)[j]? = some u ∧ (t.path == u.path) = true := by
  rcases List.mem_iff_getElem?.mp hs with ⟨k, hk⟩
  unfold Explorer.Links Explorer.position
  rw [hkeys]
  simp only [hdistinct.findIdx_iff]
  constructor
  · rintro ⟨⟨s', hs', heq⟩, t, ht, u, hu, hsame⟩
    have hindex : k = i := hdistinct.index_unique hk hs' heq
    exact ⟨t, u, hindex ▸ hk, ht, hu, hsame⟩
  · rintro ⟨t, u, hi, ht, hu, hsame⟩
    exact ⟨⟨s, hi, BEq.rfl⟩, t, ht, u, hu, hsame⟩

theorem called_of_explores (htable : graph.found.table = numbered 1 scripts) {s : Location}
    (h : x.Explores graph.found s) :
    ∃ chunk, x.parse s = .ok chunk ∧ ∀ e ∈ blockNodes chunk.body, ∀ call,
      requireCall? e = some call → ∃ name line t, call = .module name line ∧
        x.leadsTo graph.found.known s name = some t ∧ ∃ u ∈ scripts, (t.path == u.path) = true := by
  rcases h with ⟨chunk, hchunk, hpasses⟩
  refine ⟨chunk, hchunk, ?_⟩
  intro e he call hcall
  have hstop := hpasses _ ((accounts_of_passes hpasses).call e he call hcall)
  cases call with
  | unsupported line => exact hstop.elim
  | module name line =>
      rcases hstop with ⟨t, id, hleads, _, hlookup⟩
      rcases mem_of_lookup hlookup with ⟨p, hp, heq⟩
      have hmem : p ∈ scripts.map Location.path := by
        rw [← numbered_fst 1 scripts, ← htable]
        exact List.mem_map.mpr ⟨_, hp, rfl⟩
      rcases List.mem_map.mp hmem with ⟨u, hu, rfl⟩
      exact ⟨name, line, t, rfl, hleads, u, hu, heq⟩

theorem nodes_of_start (htable : start.table = [])
    (hrequires : start.requires = ⟨[⟨x.entry.path, none⟩], []⟩) :
    start.requires.nodes = x.nodesOf start.table := by
  rw [hrequires, htable]
  rfl

theorem joins_of_run (hparse : x.parse x.entry = .ok chunk)
    (hvisits : Visits x x.entry (blockStops chunk.body) start scripts answers graph.found)
    (htable : start.table = []) (hrequires : start.requires = ⟨[⟨x.entry.path, none⟩], []⟩)
    (i j : Nat) :
    graph.found.requires.Joins i j ↔
      ∃ s t u, (x.entry :: scripts)[i]? = some s ∧ x.Calls graph.found.known s t ∧
        (x.entry :: scripts)[j]? = some u ∧ (t.path == u.path) = true := by
  have hkeys := keys_of_run hvisits htable
  have hexplores := explores_of_run hparse hvisits
  have hdistinct := distinct_of_preorder (preorder_of_run hparse hvisits htable)
  have hposition : ∃ i, x.position start x.entry.path = some i :=
    position_isSome_of_mem ⟨x.entry.path, by simp [Explorer.keys], BEq.rfl⟩
  have hnext : x.next graph.found x.entry =
      x.called graph.found x.entry (blockStops chunk.body) := by
    simp [Explorer.next, hparse]
  have hstart : ¬start.requires.Joins i j := by
    rw [hrequires]
    rintro ⟨line, hline⟩
    simp at hline
  rw [hvisits.edges (Grown.refl _) (nodes_of_start htable hrequires) hposition i j, ← hnext]
  constructor
  · rintro (hjoins | hlinks | ⟨s, hs, hlinks⟩)
    · exact absurd hjoins hstart
    · rcases (links_iff hdistinct hkeys (by simp)).mp hlinks with ⟨t, u, hi, ht, hj, heq⟩
      exact ⟨_, t, u, hi, (mem_next_iff (hexplores _ (by simp))).mp ht, hj, heq⟩
    · have hs := List.mem_cons_of_mem x.entry hs
      rcases (links_iff hdistinct hkeys hs).mp hlinks with ⟨t, u, hi, ht, hj, heq⟩
      exact ⟨s, t, u, hi, (mem_next_iff (hexplores s hs)).mp ht, hj, heq⟩
  · rintro ⟨s, t, u, hi, hcalls, hj, heq⟩
    have hs : s ∈ x.entry :: scripts := List.mem_of_getElem? hi
    have hlinks := (links_iff hdistinct hkeys hs).mpr
      ⟨t, u, hi, (mem_next_iff (hexplores s hs)).mpr hcalls, hj, heq⟩
    rcases List.mem_cons.mp hs with rfl | hs
    · exact Or.inr (Or.inl hlinks)
    · exact Or.inr (Or.inr ⟨s, hs, hlinks⟩)

end Found

/-- A successful discovery lists every script that can be reached from the entry, once, in
depth-first order, with its number and its calls. -/
theorem graph_lists {x : Explorer} {graph : ModuleGraph} (h : x.graph = .ok graph) :
    ∃ scripts, graph.Lists x scripts := by
  rcases graph_run h with
    ⟨start, scripts, answers, chunk, body, _, htrees, htable, hparsed, hrequires, hparse, hvisits,
      _, _⟩
  have hfinal := Grown.refl graph.found
  have htable' := table_of_run hvisits htable
  have hexplores := explores_of_run hparse hvisits
  have horder := preorder_of_run hparse hvisits htable
  have hdistinct := distinct_of_preorder horder
  have hlength : graph.found.table.length = scripts.length := by
    rw [htable', numbered_length]
  have hnodes := nodes_of_start htable hrequires
  refine ⟨scripts, ?_⟩
  constructor
  case entry =>
    unfold Explorer.graph at h
    simp only [bind, Except.bind, pure, Except.pure] at h
    split at h <;> cases h
    rfl
  case numbers => rw [htable', numbered_snd, numbered_length]
  case keys => rw [htable', numbered_fst]
  case distinct => exact hdistinct.of_cons
  case notEntry =>
    intro s hs
    exact List.rel_of_pairwise_cons hdistinct hs
  case canonical =>
    intro s hs
    rcases hvisits.explores hfinal s hs with ⟨⟨_, hchunk, _⟩, hcanonical⟩
    exact ⟨hcanonical, isFile_of_parse hchunk⟩
  case trees =>
    have hperm := hvisits.trees hfinal (by simp [htrees])
    rw [htrees, htable, List.append_nil] at hperm
    rw [hlength, ← treesFrom_fst x graph.found 1 scripts]
    exact hperm.map Prod.fst
  case parsed =>
    rw [hvisits.grows.2.2, hparsed]
    rfl
  case order => exact horder
  case calls =>
    intro s hs t
    exact mem_next_iff (hexplores s hs)
  case closed =>
    intro s hs
    exact called_of_explores htable' (hexplores s hs)
  case reached =>
    intro s hs
    rcases horder.reached s hs with ⟨t, ht, hmem, hchain⟩
    exact Relation.TransGen.head' ⟨ht, hmem⟩ hchain
  case nodes =>
    rw [hvisits.nodes hnodes, htable', ← numbered_fst 1 scripts]
    simp [Explorer.nodesOf, Function.comp_def]
  case edges =>
    intro i j
    exact joins_of_run hparse hvisits htable hrequires i j
  case simple =>
    refine hvisits.simple ?_
    rw [hrequires]
    exact List.Pairwise.nil

/-- A project with two modules that require each other, one of them required twice. -/
def ringProject : Explorer where
  files := {
    entries := [
      (["main.lua"], .file (Text.utf8 "require 'a' print(require('b'), (require \"a\"))".toList)),
      (["a.lua"], .file (Text.utf8 "return require('b')".toList)),
      (["b.lua"], .file (Text.utf8 "local a = require 'a' return a".toList))] }
  resolver := { extension := "lua", entryDir := ⟨"/"⟩, dependencyRoots := [⟨"/node_modules"⟩] }
  entry := { path := ⟨"/main.lua"⟩, directory := ⟨"/"⟩ }

theorem ringProject_succeeds : ∃ graph, ringProject.graph = .ok graph := by
  have hsome : ringProject.graph.toOption.isSome = true := by decide +kernel
  cases hgraph : ringProject.graph with
  | error e =>
      rw [hgraph] at hsome
      cases hsome
  | ok graph => exact ⟨graph, rfl⟩

theorem ringProject_lists :
    ∃ graph, ringProject.graph = .ok graph ∧ ∃ scripts, graph.Lists ringProject scripts := by
  rcases ringProject_succeeds with ⟨graph, hgraph⟩
  exact ⟨graph, hgraph, graph_lists hgraph⟩

end LuaBundle
