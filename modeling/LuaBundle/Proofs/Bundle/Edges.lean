import LuaBundle.Proofs.Bundle.Modules
import Mathlib.Tactic.Tauto

/-!
# The graph of a run

The scripts of the graph are the entry and the numbered modules, in order.  A run adds an
edge for every call it passes, its own and those of the modules it meets, and no other edge.
-/

namespace LuaBundle

open Lua

namespace RequireGraph

def Joins (g : RequireGraph) (i j : Nat) : Prop :=
  ∃ line, ⟨i, j, line⟩ ∈ g.edges

def IsSimple (g : RequireGraph) : Prop :=
  g.edges.Pairwise fun e f => ¬(e.source = f.source ∧ e.target = f.target)

theorem joins_iff {g : RequireGraph} {i j : Nat} : g.Joins i j ↔ g.hasEdge i j = true := by
  unfold Joins hasEdge
  rw [List.any_eq_true]
  constructor
  · rintro ⟨line, hmem⟩
    exact ⟨_, hmem, by simp⟩
  · rintro ⟨e, hmem, he⟩
    rcases e with ⟨i', j', line⟩
    simp only [Bool.and_eq_true, beq_iff_eq] at he
    rcases he with ⟨rfl, rfl⟩
    exact ⟨line, hmem⟩

theorem addRequire_nodes (g : RequireGraph) (p q : Path) (line : Nat) :
    (g.addRequire p q line).nodes = g.nodes := by
  unfold addRequire
  split
  · split <;> rfl
  · rfl

theorem addRequire_joins {g : RequireGraph} {p q : Path} {i j : Nat} (line : Nat)
    (hp : g.index? p = some i) (hq : g.index? q = some j) (a b : Nat) :
    (g.addRequire p q line).Joins a b ↔ g.Joins a b ∨ (a = i ∧ b = j) := by
  unfold addRequire
  rw [hp, hq]
  simp only
  split
  · rename_i hedge
    constructor
    · exact Or.inl
    · rintro (h | ⟨rfl, rfl⟩)
      · exact h
      · exact joins_iff.mpr hedge
  · simp only [Joins, List.mem_append, List.mem_singleton, GraphEdge.mk.injEq]
    constructor
    · rintro ⟨l, h | ⟨rfl, rfl, _⟩⟩
      · exact Or.inl ⟨l, h⟩
      · exact Or.inr ⟨rfl, rfl⟩
    · rintro (⟨l, h⟩ | ⟨rfl, rfl⟩)
      · exact ⟨l, Or.inl h⟩
      · exact ⟨line, Or.inr ⟨rfl, rfl, rfl⟩⟩

theorem addRequire_simple {g : RequireGraph} (h : g.IsSimple) (p q : Path) (line : Nat) :
    (g.addRequire p q line).IsSimple := by
  unfold addRequire
  split
  · rename_i i j _ _
    split
    · exact h
    · rename_i hedge
      refine List.pairwise_append.mpr ⟨h, List.pairwise_singleton _ _, ?_⟩
      intro e he f hf hsame
      rw [List.mem_singleton] at hf
      subst hf
      rcases hsame with ⟨rfl, rfl⟩
      exact hedge (joins_iff.mp ⟨e.line, he⟩)
  · exact h

theorem addModule_of_new {g : RequireGraph} {p : Path} (id : Option Nat)
    (h : g.index? p = none) :
    (g.addModule p id).2 = { g with nodes := g.nodes ++ [⟨p, id⟩] } := by
  simp [addModule, h]

end RequireGraph

/-!
## Positions
-/

def Explorer.nodesOf (x : Explorer) (table : ModuleTable) : List GraphNode :=
  ⟨x.entry.path, none⟩ :: table.map fun (p, id) => ⟨p, some id⟩

def Explorer.position (x : Explorer) (d : Discovery) (p : Path) : Option Nat :=
  (x.keys d).findIdx? (· == p)

section Run

variable {x : Explorer} {s t : Location} {stops : List WalkStop} {d d₁ d' final : Discovery}
  {new : List Location} {answers : Answers} {name : String} {line id : Nat}

theorem index_eq_position (hnodes : d.requires.nodes = x.nodesOf d.table) (p : Path) :
    d.requires.index? p = x.position d p := by
  have hkeys : (x.nodesOf d.table).map GraphNode.path = x.keys d := by
    simp [Explorer.nodesOf, Explorer.keys, Function.comp_def]
  rw [RequireGraph.index?, hnodes, Explorer.position, ← hkeys, List.findIdx?_map]
  rfl

theorem findIdx_of_isPrefix {test : α → Bool} {front whole : List α} {i : Nat}
    (hgrown : front <+: whole) (h : front.findIdx? test = some i) :
    whole.findIdx? test = some i := by
  rcases hgrown with ⟨back, rfl⟩
  rw [List.findIdx?_append, h, Option.some_or]

theorem position_of_grown {p : Path} {i : Nat} (h : Grown d final)
    (hp : x.position d p = some i) : x.position final p = some i := by
  refine findIdx_of_isPrefix ?_ hp
  exact (List.cons_prefix_cons).mpr ⟨rfl, h.table.map Prod.fst⟩

theorem position_isSome_of_mem {p : Path} (h : ∃ q ∈ x.keys d, (p == q) = true) :
    ∃ i, x.position d p = some i := by
  rcases h with ⟨q, hq, heq⟩
  refine Option.isSome_iff_exists.mp ?_
  rw [Explorer.position, List.findIdx?_isSome]
  exact List.any_eq_true.mpr ⟨q, hq, BEq.symm heq⟩

theorem position_eq_none (h : ∀ q ∈ x.keys d, (t.path == q) = false) :
    x.position d t.path = none := by
  refine List.findIdx?_eq_none_iff.mpr ?_
  intro q hq
  rw [BEq.comm]
  exact h q hq

/-!
## Nodes
-/

theorem nodes_of_find (hfind : x.find s name d = .ok (t, d₁))
    (hnodes : d.requires.nodes = x.nodesOf d.table) :
    d₁.requires.nodes = x.nodesOf d₁.table := by
  rcases find_ok hfind with ⟨known, rfl, _, _, _⟩
  exact hnodes

theorem nodes_connect (hnodes : d.requires.nodes = x.nodesOf d.table) (p q : Path)
    (line : Nat) :
    (d.connect p q line).requires.nodes = x.nodesOf (d.connect p q line).table := by
  rw [Discovery.connect, RequireGraph.addRequire_nodes]
  exact hnodes

theorem requires_number (hentry : (t.path == x.entry.path) = false)
    (hnew : d.table.lookup t.path = none) (hnodes : d.requires.nodes = x.nodesOf d.table) :
    (d.number t.path).2.requires =
      { d.requires with
        nodes := d.requires.nodes ++ [⟨t.path, some (d.table.length + 1)⟩] } := by
  refine RequireGraph.addModule_of_new _ ?_
  rw [index_eq_position hnodes]
  exact position_eq_none (not_mem_keys hentry hnew)

theorem nodes_number (hentry : (t.path == x.entry.path) = false)
    (hnew : d.table.lookup t.path = none) (hnodes : d.requires.nodes = x.nodesOf d.table) :
    (d.number t.path).2.requires.nodes = x.nodesOf (d.number t.path).2.table := by
  rw [requires_number hentry hnew hnodes]
  simp [Discovery.number, hnodes, Explorer.nodesOf]

theorem Visits.nodes (h : Visits x s stops d new answers d')
    (hnodes : d.requires.nodes = x.nodesOf d.table) :
    d'.requires.nodes = x.nodesOf d'.table := by
  induction h with
  | done s d => exact hnodes
  | name _ _ ih => exact ih hnodes
  | again hfind _ _ _ ih => exact ih (nodes_connect (nodes_of_find hfind hnodes) _ _ _)
  | enter hfind hentry hnew _ _ _ _ ihinside ihrest =>
      have hnumber := nodes_number hentry hnew (nodes_of_find hfind hnodes)
      exact ihrest (ihinside (nodes_connect hnumber _ _ _))

theorem Visits.simple (h : Visits x s stops d new answers d') (hsimple : d.requires.IsSimple) :
    d'.requires.IsSimple := by
  induction h with
  | done s d => exact hsimple
  | name _ _ ih => exact ih hsimple
  | again hfind _ _ _ ih =>
      rcases find_ok hfind with ⟨known, rfl, _, _, _⟩
      exact ih (RequireGraph.addRequire_simple hsimple _ _ _)
  | enter hfind _ _ _ _ _ _ ihinside ihrest =>
      rcases find_ok hfind with ⟨known, rfl, _, _, _⟩
      refine ihrest (ihinside (RequireGraph.addRequire_simple ?_ _ _ _))
      unfold RequireGraph.IsSimple Discovery.number RequireGraph.addModule
      split <;> exact hsimple

/-!
## Edges
-/

/-- Whether a call of a script leads from one position to another. -/
def Explorer.Links (x : Explorer) (final : Discovery) (s : Location) (targets : List Location)
    (i j : Nat) : Prop :=
  x.position final s.path = some i ∧ ∃ t ∈ targets, x.position final t.path = some j

theorem links_cons {targets : List Location} {i j : Nat} :
    x.Links final s (t :: targets) i j ↔
      (x.position final s.path = some i ∧ x.position final t.path = some j) ∨
        x.Links final s targets i j := by
  simp only [Explorer.Links, List.mem_cons, exists_eq_or_imp]
  tauto

theorem connect_joins (line i j : Nat) (hnodes : d.requires.nodes = x.nodesOf d.table)
    (hs : ∃ i, x.position d s.path = some i) (ht : ∃ j, x.position d t.path = some j)
    (hgrown : Grown d final) :
    (d.connect s.path t.path line).requires.Joins i j ↔
      d.requires.Joins i j ∨
        (x.position final s.path = some i ∧ x.position final t.path = some j) := by
  rcases hs with ⟨i', hs⟩
  rcases ht with ⟨j', ht⟩
  have hjoins := RequireGraph.addRequire_joins line
    ((index_eq_position hnodes s.path).trans hs) ((index_eq_position hnodes t.path).trans ht) i j
  rw [position_of_grown hgrown hs, position_of_grown hgrown ht]
  simp only [Option.some.injEq]
  rw [eq_comm (a := i'), eq_comm (a := j')]
  exact hjoins

theorem joins_of_find {i j : Nat} (hfind : x.find s name d = .ok (t, d₁)) :
    d₁.requires.Joins i j ↔ d.requires.Joins i j := by
  rcases find_ok hfind with ⟨known, rfl, _, _, _⟩
  exact Iff.rfl

theorem position_of_find {p : Path} (hfind : x.find s name d = .ok (t, d₁)) :
    x.position d₁ p = x.position d p := by
  rw [Explorer.position, keys_of_find hfind]
  rfl

theorem position_number (x : Explorer) (d : Discovery) (t : Location) :
    ∃ j, x.position (d.number t.path).2 t.path = some j := by
  refine position_isSome_of_mem ⟨t.path, ?_, BEq.rfl⟩
  simp [Explorer.keys, Discovery.number]

theorem grown_number (p : Path) : Grown d (d.number p).2 :=
  ⟨List.prefix_refl _, List.prefix_append _ _⟩

/-- The edges after a run are those before it, those of its own calls, and those of the calls
in the modules it meets. -/
theorem Visits.edges (h : Visits x s stops d new answers d') (hfinal : Grown d' final)
    (hnodes : d.requires.nodes = x.nodesOf d.table) (hs : ∃ i, x.position d s.path = some i)
    (i j : Nat) :
    d'.requires.Joins i j ↔
      d.requires.Joins i j ∨ x.Links final s (x.called final s stops) i j ∨
        ∃ t ∈ new, x.Links final t (x.next final t) i j := by
  induction h with
  | done s d => simp [Explorer.Links, Explorer.called]
  | name _ _ ih =>
      rw [called_cons_name]
      exact ih hfinal hnodes hs
  | @again s name line stops d t d₁ id new answers d' hfind _ hknown hrest ih =>
      have hgrown := hrest.grown.trans hfinal
      have hd₁ : Grown d₁ final := ⟨hgrown.known, hgrown.table⟩
      have hnodes₁ := nodes_of_find hfind hnodes
      have hs₁ : ∃ i, x.position d₁ s.path = some i := by
        rw [position_of_find hfind]
        exact hs
      have hjoins := connect_joins line i j hnodes₁ hs₁
        (position_isSome_of_mem (mem_keys_of_lookup hknown)) hd₁
      rw [called_cons_of_leadsTo (leadsTo_of_find hfind hd₁), links_cons,
        ih hfinal (nodes_connect hnodes₁ _ _ _) hs₁, hjoins, joins_of_find hfind]
      simp only [or_assoc]
  | @enter s name line stops d t d₁ chunk body inner inside d₂ new answers d' hfind hentry hnew
      hparse hinside _ hrest ihinside ihrest =>
      rcases Visits.grown_enter hinside hrest hfinal with ⟨hlast, hknown, htable⟩
      have hd₁ : Grown d₁ final := ⟨hknown, (List.prefix_append _ _).trans htable⟩
      have hnumber : Grown (d₁.number t.path).2 final := ⟨hknown, htable⟩
      have hnodes₁ := nodes_of_find hfind hnodes
      have hnodes₂ := nodes_number hentry hnew hnodes₁
      have ht := position_number x d₁ t
      have hs₁ : ∃ i, x.position (d₁.number t.path).2 s.path = some i := by
        rcases hs with ⟨i, hs⟩
        rw [← position_of_find hfind] at hs
        exact ⟨i, position_of_grown (grown_number t.path) hs⟩
      have hs₂ : ∃ i, x.position d₂ s.path = some i := by
        rcases hs₁ with ⟨i, hs₁⟩
        exact ⟨i, position_of_grown ⟨hinside.grown.known, hinside.grown.table⟩ hs₁⟩
      have hjoins : (d₁.begin s.path t.path line).requires.Joins i j ↔
          d.requires.Joins i j ∨
            (x.position final s.path = some i ∧ x.position final t.path = some j) := by
        rw [← joins_of_find hfind]
        have hconnect := connect_joins line i j hnodes₂ hs₁ ht hnumber
        rw [requires_number hentry hnew hnodes₁] at hconnect
        exact hconnect
      have hnext : x.next final t = x.called final t (blockStops chunk.body) := by
        simp [Explorer.next, hparse]
      have hin := ihinside hlast (nodes_connect hnodes₂ _ _ _) ht
      have hout := ihrest hfinal (hinside.nodes (nodes_connect hnodes₂ _ _ _)) hs₂
      rw [called_cons_of_leadsTo (leadsTo_of_find hfind hd₁), links_cons, hout]
      simp only [List.cons_append, List.mem_cons, List.mem_append, or_and_right, exists_or,
        exists_eq_left, hnext]
      rw [show (d₂.store _ _).requires.Joins i j ↔ _ from hin, hjoins]
      simp only [or_assoc, or_left_comm]

end Run

end LuaBundle
