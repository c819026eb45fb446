import LuaBundle.Proofs.Bundle.Reach

/-!
# When a discovery succeeds

A discovery that only meets scripts it can parse and pass comes to an end: the modules with
a number are different files, so there are never more of them than files, and the depth of
the exploration is enough.
-/

namespace LuaBundle

open Lua

/-- A state in which the modules with a number are different files. -/
structure Ready (x : Explorer) (d : Discovery) : Prop where
  sound : Known.IsSound x.files d.known
  files : ∀ p ∈ d.table.map Prod.fst, ∃ entry ∈ x.files.entries, p = Path.ofNames entry.1
  distinct : (d.table.map Prod.fst).Pairwise fun p q => (q == p) = false

section Success

variable {x : Explorer} {s t : Location} {d d' : Discovery} {chunk : Chunk}

theorem Ready.bound (h : Ready x d) : d.table.length ≤ x.files.entries.length := by
  have hnodup : (d.table.map Prod.fst).Nodup := by
    refine h.distinct.imp ?_
    rintro p q hne rfl
    rw [BEq.rfl] at hne
    cases hne
  have hsubset : d.table.map Prod.fst ⊆ x.files.entries.map fun entry => Path.ofNames entry.1 := by
    intro p hp
    rcases h.files p hp with ⟨entry, hentry, rfl⟩
    exact List.mem_map.mpr ⟨entry, hentry, rfl⟩
  simpa using hnodup.length_le_of_subset hsubset

theorem file_of_parse (hproject : x.IsProject) (hs : s.IsCanonical x.files)
    (h : x.parse s = .ok chunk) : ∃ entry ∈ x.files.entries, s.path = Path.ofNames entry.1 := by
  rcases hs with ⟨p, hp⟩
  rcases FileSystem.place_of_canonicalize hproject.here hp with ⟨place, hplace, _, hlocate⟩
  unfold Explorer.parse at h
  cases hread : x.files.read s.path with
  | error e => simp [hread] at h
  | ok content =>
      unfold FileSystem.read at hread
      cases hfound : x.files.locate s.path with
      | error e => simp [hfound, bind, Except.bind] at hread
      | ok place' =>
          have heq := hlocate place' hfound
          subst heq
          cases hentry : x.files.entry? place' with
          | none => simp [hfound, hentry, bind, Except.bind] at hread
          | some entry =>
              cases entry with
              | directory => simp [hfound, hentry, bind, Except.bind] at hread
              | file content' =>
                  cases place' with
                  | nil => cases hentry
                  | cons name names =>
                      rcases mem_of_lookup hentry with ⟨found, hmem, hfound⟩
                      have hname := eq_of_beq hfound
                      exact ⟨_, hmem, by rw [hplace, hname]⟩

/-!
## Single steps
-/

theorem find_of_leadsTo {name : String} (hsound : Known.IsSound x.files d.known)
    (h : x.leadsTo d.known s name = some t) :
    ∃ known, x.find s name d = .ok (t, { d with known }) ∧ Known.IsSound x.files known := by
  have hlearns := learns_resolve x.resolver x.files s name
  unfold Explorer.leadsTo at h
  unfold Explorer.find
  generalize hrun : x.resolver.resolve x.files s name d.known = run at h
  rcases run with ⟨outcome, known⟩
  cases outcome with
  | error e => cases h
  | ok answer =>
      change answer = some t at h
      subst h
      exact ⟨known, rfl, hlearns.keeps hrun hsound⟩

theorem Ready.number (hproject : x.IsProject) (h : Ready x d) (ht : t.IsCanonical x.files)
    (hparse : x.parse t = .ok chunk) (hnew : d.table.lookup t.path = none) (line : Nat) :
    Ready x ((d.number t.path).2.connect s.path t.path line) := by
  have htable : ((d.number t.path).2.connect s.path t.path line).table.map Prod.fst =
      d.table.map Prod.fst ++ [t.path] := by
    simp [Discovery.number, Discovery.connect]
  constructor
  case sound => exact h.sound
  case files =>
    intro p hp
    rw [htable] at hp
    rcases List.mem_append.mp hp with hp | hp
    · exact h.files p hp
    · rw [List.mem_singleton.mp hp]
      exact file_of_parse hproject ht hparse
  case distinct =>
    rw [htable]
    refine List.pairwise_append.mpr ⟨h.distinct, List.pairwise_singleton _ _, ?_⟩
    intro p hp q hq
    rcases List.mem_map.mp hp with ⟨pair, hpair, rfl⟩
    rw [List.mem_singleton.mp hq]
    exact lookup_eq_none_of_beq.mp hnew pair hpair

/-- An exploration that succeeds wherever it starts, when there is room for more modules. -/
structure Succeeds (x : Explorer) (depth : Nat) (explore : Location → Discover Chunk) : Prop where
  run : ∀ {s d}, x.Reachable s → Ready x d → x.files.entries.length + 1 ≤ depth + d.table.length →
    ∃ tree d', explore s d = .ok (tree, d') ∧ Ready x d' ∧ d.table.length ≤ d'.table.length

/-!
## Runs
-/

variable {depth : Nat} {explore : Location → Discover Chunk}

theorem pass_succeeds (hproject : x.IsProject) (hhealthy : ∀ s, x.Reachable s → x.Healthy s)
    (hexplore : Succeeds x depth explore) (hs : x.Reachable s) (hparse : x.parse s = .ok chunk)
    {stop : WalkStop} (hstop : stop ∈ blockStops chunk.body) (hallows : x.Allows s stop)
    (hready : Ready x d) (hroom : x.files.entries.length ≤ depth + d.table.length) :
    ∃ answers d', x.pass explore s stop d = .ok (answers, d') ∧ Ready x d' ∧
      d.table.length ≤ d'.table.length := by
  cases stop with
  | name n =>
      refine ⟨[], d, ?_, hready, Nat.le_refl _⟩
      simp only [Explorer.pass, if_neg (show ¬_ = true from hallows)]
      rfl
  | call call =>
      cases call with
      | unsupported line => exact hallows.elim
      | module name line =>
          rcases hallows d.known hready.sound with ⟨t, hleads, hentry⟩
          rcases find_of_leadsTo hready.sound hleads with ⟨known, hfind, hsound⟩
          have hready₁ : Ready x { d with known } := ⟨hsound, hready.files, hready.distinct⟩
          have ht := hs.call hparse hstop hready.sound hleads
          rcases hhealthy t ht with ⟨chunk', hparse', _⟩
          -- The number is an old one, or it is given before the exploration of a new script.
          have hrequire : ∃ id d', x.require explore s name line d = .ok (id, d') ∧ Ready x d' ∧
              d.table.length ≤ d'.table.length := by
            rw [require_eq, hfind]
            simp only [hentry, Bool.false_eq_true, if_false]
            cases hlookup : d.table.lookup t.path with
            | some id =>
                exact ⟨id, _, rfl, ⟨hsound, hready.files, hready.distinct⟩, Nat.le_refl _⟩
            | none =>
                have hnumbered : Ready x
                    ((Discovery.number { d with known } t.path).2.connect s.path t.path line) :=
                  hready₁.number hproject (ht.canonical hproject) hparse' hlookup line
                have hlength :
                    ((Discovery.number { d with known } t.path).2.connect s.path t.path
                      line).table.length = d.table.length + 1 := by
                  simp [Discovery.number, Discovery.connect]
                rcases hexplore.run ht hnumbered (by rw [hlength]; omega) with
                  ⟨tree, d₂, hrun, hready₂, hgrown⟩
                rw [hlength] at hgrown
                refine ⟨d.table.length + 1, d₂.store (d.table.length + 1) tree, ?_, ?_, ?_⟩
                · rw [hrun]
                · exact ⟨hready₂.sound, hready₂.files, hready₂.distinct⟩
                · exact Nat.le_of_succ_le hgrown
          rcases hrequire with ⟨id, d', hrun, hready', hgrown⟩
          refine ⟨[(name, id)], d', ?_, hready', hgrown⟩
          simp only [Explorer.pass, bind, StateT.bind, Except.bind, hrun]
          rfl

theorem passAll_succeeds (hproject : x.IsProject) (hhealthy : ∀ s, x.Reachable s → x.Healthy s)
    (hexplore : Succeeds x depth explore) (hs : x.Reachable s) (hparse : x.parse s = .ok chunk)
    {stops : List WalkStop}
    (hstops : ∀ stop ∈ stops, stop ∈ blockStops chunk.body ∧ x.Allows s stop)
    (hready : Ready x d) (hroom : x.files.entries.length ≤ depth + d.table.length) :
    ∃ answers d', x.passAll explore s stops d = .ok (answers, d') ∧ Ready x d' ∧
      d.table.length ≤ d'.table.length := by
  induction stops generalizing d with
  | nil => exact ⟨[], d, rfl, hready, Nat.le_refl _⟩
  | cons stop stops ih =>
      rcases hstops stop (by simp) with ⟨hmem, hallows⟩
      rcases pass_succeeds hproject hhealthy hexplore hs hparse hmem hallows hready hroom with
        ⟨answers, d₁, hpass, hready₁, hgrown₁⟩
      rcases ih (fun stop hstop => hstops stop (by simp [hstop])) hready₁ (by omega) with
        ⟨more, d₂, hmore, hready₂, hgrown₂⟩
      refine ⟨answers ++ more, d₂, ?_, hready₂, Nat.le_trans hgrown₁ hgrown₂⟩
      simp only [Explorer.passAll, bind, StateT.bind, Except.bind, hpass, hmore]
      rfl

/-- Explorations of healthy projects succeed: every level of depth is used up by a new
module, and there is no room for more modules than files. -/
theorem explore_succeeds (hproject : x.IsProject) (hhealthy : ∀ s, x.Reachable s → x.Healthy s)
    (depth : Nat) : Succeeds x depth (x.explore depth) := by
  induction depth with
  | zero =>
      constructor
      intro s d _ hready hroom
      have hbound := hready.bound
      omega
  | succ depth ih =>
      constructor
      intro s d hs hready hroom
      rcases hhealthy s hs with ⟨chunk, hparse, hallows⟩
      have hready' : Ready x (d.enter s.path) := ⟨hready.sound, hready.files, hready.distinct⟩
      have hroom' : x.files.entries.length ≤ depth + (d.enter s.path).table.length := by
        change _ ≤ depth + d.table.length
        omega
      rcases passAll_succeeds hproject hhealthy ih hs hparse
          (fun stop hstop => ⟨hstop, hallows stop hstop⟩) hready' hroom' with
        ⟨answers, d', hpass, hready'', hgrown⟩
      have hwalk := (block_follows x (x.explore depth) s chunk.body).run (d.enter s.path)
      rw [hpass] at hwalk
      rcases hwalk with ⟨body, hrun, _⟩
      refine ⟨{ chunk with body }, d', ?_, hready'', hgrown⟩
      rw [explore_eq, hparse]
      simp only [hrun]

/-- A project has a graph if every script that can be reached can be parsed and passed. -/
theorem graph_succeeds (hproject : x.IsProject)
    (hhealthy : ∀ s, x.Reachable s → x.Healthy s) : ∃ graph, x.graph = .ok graph := by
  have hstart : Ready x { requires := (RequireGraph.addModule {} x.entry.path none).2 } := by
    constructor
    case sound => simp [Known.IsSound]
    case files => simp
    case distinct => exact List.Pairwise.nil
  rcases (explore_succeeds hproject hhealthy x.depth).run .entry hstart
      (Nat.le_add_right _ _) with ⟨main, found, hrun, _, _⟩
  refine ⟨⟨x.entry, main, found⟩, ?_⟩
  simp only [Explorer.graph, bind, Except.bind, hrun]
  rfl

end Success

end LuaBundle
