import LuaBundle.Proofs.Bundle.Faults
import LuaBundle.Proofs.Bundle.Reach
import Mathlib.Data.Set.Card

/-!
# Nested processing

A discovery processes the entry, and a call that leads to a new module nests the processing of
that module.  Here this is told without a bound on the nesting, as a relation whose
derivations are the runs that end.  Every discovery has such a run and only one, it is what
the bounded discovery computes, and no file is processed twice as a module in it.
-/

namespace LuaBundle

open Lua

/-!
## Runs that end

A script is processed at a level: one more than that of the script whose call leads to it.  A
stop is passed in two steps.  At first the call is answered and a new module is given its
number; then the module is processed, if there is one, before the stops behind.  The log of a
run lists the scripts in the order in which they are processed, the first one in front.
-/

structure Processed where
  script : Location
  level : Nat

/-- What a call does at first: the fault that it finds, or the state that it leaves and the new
module that is to be processed then, if there is one. -/
def Explorer.lead (x : Explorer) (s : Location) (name : String) (line : Nat) (d : Discovery) :
    Except BundleError (Discovery × Option Location) :=
  match x.find s name d with
  | .error e => .error e
  | .ok (t, d₁) =>
      if t.path == x.entry.path then .error (.entryRequired s.path line name)
      else
        match d₁.table.lookup t.path with
        | some _ => .ok (d₁.connect s.path t.path line, none)
        | none => .ok ((d₁.number t.path).2.connect s.path t.path line, some t)

def Explorer.meet (x : Explorer) (s : Location) (d : Discovery) :
    WalkStop → Except BundleError (Discovery × Option Location)
  | .name n =>
      if reservedStart.toList.isPrefixOf n.text.toList then .error (.reservedName s.path n.text)
      else .ok (d, none)
  | .call (.unsupported line) => .error (.unsupportedRequire s.path line)
  | .call (.module name line) => x.lead s name line d

mutual

/-- The processing of a script at a level: the scripts that are processed on the way, itself
first, and how it ends. -/
inductive Explorer.Processing (x : Explorer) : Nat → Location → Discovery → List Processed →
    Except BundleError (Chunk × Discovery) → Prop where
  | refused {level s d e} (hparse : x.parse s = .error e) :
      x.Processing level s d [⟨s, level⟩] (.error e)
  | ended {level s d chunk log outcome} (hparse : x.parse s = .ok chunk)
      (hpasses : x.Passing level s (blockStops chunk.body) (d.enter s.path) log outcome) :
      x.Processing level s d (⟨s, level⟩ :: log) (outcome.map fun d' => (x.treeOf d' s, d'))

inductive Explorer.Passing (x : Explorer) : Nat → Location → List WalkStop → Discovery →
    List Processed → Except BundleError Discovery → Prop where
  | done {level s d} : x.Passing level s [] d [] (.ok d)
  | fault {level s stop stops d e} (hmeet : x.meet s d stop = .error e) :
      x.Passing level s (stop :: stops) d [] (.error e)
  | step {level s stop stops d d₁ log outcome} (hmeet : x.meet s d stop = .ok (d₁, none))
      (hrest : x.Passing level s stops d₁ log outcome) :
      x.Passing level s (stop :: stops) d log outcome
  | failed {level s stop stops d t d₁ inner e} (hmeet : x.meet s d stop = .ok (d₁, some t))
      (hinside : x.Processing (level + 1) t d₁ inner (.error e)) :
      x.Passing level s (stop :: stops) d inner (.error e)
  | new {level s stop stops d t d₁ inner tree d₂ log outcome}
      (hmeet : x.meet s d stop = .ok (d₁, some t))
      (hinside : x.Processing (level + 1) t d₁ inner (.ok (tree, d₂)))
      (hrest : x.Passing level s stops (d₂.store d₁.table.length tree) log outcome) :
      x.Passing level s (stop :: stops) d (inner ++ log) outcome

end

section Unique

variable {x : Explorer}

theorem Explorer.Processing.unique {level : Nat} {s : Location} {d : Discovery}
    {log log' : List Processed} {outcome outcome' : Except BundleError (Chunk × Discovery)}
    (h : x.Processing level s d log outcome) (h' : x.Processing level s d log' outcome') :
    log' = log ∧ outcome' = outcome := by
  revert log' outcome'
  refine @Explorer.Processing.rec x
    (fun level s d log outcome _ => ∀ {log' outcome'}, x.Processing level s d log' outcome' →
      log' = log ∧ outcome' = outcome)
    (fun level s stops d log outcome _ => ∀ {log' outcome'},
      x.Passing level s stops d log' outcome' → log' = log ∧ outcome' = outcome)
    ?refused ?ended ?done ?fault ?step ?failed ?new level s d log outcome h
  case refused =>
    intro level s d e hparse log' outcome' h'
    cases h' with
    | refused hparse' => cases hparse.symm.trans hparse'; exact ⟨rfl, rfl⟩
    | ended hparse' _ => cases hparse.symm.trans hparse'
  case ended =>
    intro level s d chunk log outcome hparse _ ih log' outcome' h'
    cases h' with
    | refused hparse' => cases hparse.symm.trans hparse'
    | ended hparse' hpasses' =>
        cases hparse.symm.trans hparse'
        rcases ih hpasses' with ⟨rfl, rfl⟩
        exact ⟨rfl, rfl⟩
  case done =>
    intro level s d log' outcome' h'
    cases h'
    exact ⟨rfl, rfl⟩
  case fault =>
    intro level s stop stops d e hmeet log' outcome' h'
    cases h' with
    | fault hmeet' => cases hmeet.symm.trans hmeet'; exact ⟨rfl, rfl⟩
    | step hmeet' _ => cases hmeet.symm.trans hmeet'
    | failed hmeet' _ => cases hmeet.symm.trans hmeet'
    | new hmeet' _ _ => cases hmeet.symm.trans hmeet'
  case step =>
    intro level s stop stops d d₁ log outcome hmeet _ ih log' outcome' h'
    cases h' with
    | fault hmeet' => cases hmeet.symm.trans hmeet'
    | step hmeet' hrest' => cases hmeet.symm.trans hmeet'; exact ih hrest'
    | failed hmeet' _ => cases hmeet.symm.trans hmeet'
    | new hmeet' _ _ => cases hmeet.symm.trans hmeet'
  case failed =>
    intro level s stop stops d t d₁ inner e hmeet _ ih log' outcome' h'
    cases h' with
    | fault hmeet' => cases hmeet.symm.trans hmeet'
    | step hmeet' _ => cases hmeet.symm.trans hmeet'
    | failed hmeet' hinside' =>
        cases hmeet.symm.trans hmeet'
        rcases ih hinside' with ⟨rfl, heq⟩
        cases heq
        exact ⟨rfl, rfl⟩
    | new hmeet' hinside' _ =>
        cases hmeet.symm.trans hmeet'
        cases (ih hinside').2
  case new =>
    intro level s stop stops d t d₁ inner tree d₂ log outcome hmeet _ _ ih ihrest log' outcome' h'
    cases h' with
    | fault hmeet' => cases hmeet.symm.trans hmeet'
    | step hmeet' _ => cases hmeet.symm.trans hmeet'
    | failed hmeet' hinside' =>
        cases hmeet.symm.trans hmeet'
        cases (ih hinside').2
    | new hmeet' hinside' hrest' =>
        cases hmeet.symm.trans hmeet'
        rcases ih hinside' with ⟨rfl, heq⟩
        cases heq
        rcases ihrest hrest' with ⟨rfl, rfl⟩
        exact ⟨rfl, rfl⟩

end Unique

/-!
## Files of modules

Modules are files that calls can lead to, and none of them is the entry.  There are finitely
many, and each is met once.
-/

def Explorer.moduleFiles (x : Explorer) : Set Path :=
  {p | (∃ t, x.Reachable t ∧ t.path = p) ∧ (∃ place, x.files.IsPathOf p place) ∧
    (p == x.entry.path) = false}

/-- A state in which the modules met are different files of modules. -/
structure WalkState.OfModules (x : Explorer) (w : WalkState) : Prop where
  sound : w.Sound x
  files : ∀ p ∈ w.met, p ∈ x.moduleFiles

section Files

variable {x : Explorer} {w : WalkState}

theorem moduleFiles_entries :
    x.moduleFiles ⊆ {p | p ∈ x.files.entries.map fun entry => Path.ofNames entry.1} := by
  rintro p ⟨_, ⟨place, hplace⟩, _⟩
  rcases hplace.entry with ⟨entry, hentry, rfl⟩
  exact List.mem_map.mpr ⟨entry, hentry, rfl⟩

theorem moduleFiles_finite : x.moduleFiles.Finite :=
  (List.finite_toSet _).subset moduleFiles_entries

theorem moduleFiles_card : x.moduleFiles.ncard ≤ x.files.entries.length := by
  classical
  have hlist := List.finite_toSet (x.files.entries.map fun entry => Path.ofNames entry.1)
  have hcard := Set.ncard_le_ncard moduleFiles_entries hlist
  have hlength := List.toFinset_card_le (x.files.entries.map fun entry => Path.ofNames entry.1)
  rw [List.length_map, ← Set.ncard_coe_finset, List.coe_toFinset] at hlength
  exact Nat.le_trans hcard hlength

theorem WalkState.OfModules.bound (h : w.OfModules x) : w.met.length ≤ x.moduleFiles.ncard := by
  classical
  have hsubset : {p | p ∈ w.met} ⊆ x.moduleFiles := h.files
  have hcard := Set.ncard_le_ncard hsubset moduleFiles_finite
  rw [← List.toFinset_card_of_nodup h.sound.nodup, ← Set.ncard_coe_finset, List.coe_toFinset]
  exact hcard

end Files

/-!
## What a log tells

The scripts of a log are different files of modules that were not met before, at levels no
higher than their number allows.
-/

structure Explorer.Traces (x : Explorer) (level : Nat) (d : Discovery) (log : List Processed)
    (outcome : Except BundleError Discovery) : Prop where
  met : ∃ known, WalkState.OfModules x ⟨known, d.walked.met ++ log.map (·.script.path)⟩
  ended : ∀ d', outcome = .ok d' →
    d'.walked.OfModules x ∧ d'.walked.met = d.walked.met ++ log.map (·.script.path)
  levels : ∀ m ∈ log, m.level ≤ level + log.length

section Traces

variable {x : Explorer} {s t : Location} {d d₁ d₂ : Discovery} {stop : WalkStop}
  {level : Nat} {log inner : List Processed} {outcome : Except BundleError Discovery}

theorem traces_empty (hmodules : d.walked.OfModules x)
    (hended : ∀ d', outcome = .ok d' → d' = d) : x.Traces level d [] outcome := by
  constructor
  case met =>
    rw [List.map_nil, List.append_nil]
    exact ⟨d.known, hmodules⟩
  case ended =>
    intro d' hd
    rw [hended d' hd, List.map_nil, List.append_nil]
    exact ⟨hmodules, rfl⟩
  case levels => simp

theorem Explorer.Traces.of_met (h : x.Traces level d₁ log outcome)
    (hmet : d₁.walked.met = d.walked.met) : x.Traces level d log outcome := by
  constructor
  case met => exact hmet ▸ h.met
  case ended => exact hmet ▸ h.ended
  case levels => exact h.levels

theorem Explorer.Traces.cons (h : x.Traces (level + 1) d₁ log outcome)
    (hmet : d₁.walked.met = d.walked.met ++ [t.path]) :
    x.Traces level d (⟨t, level + 1⟩ :: log) outcome := by
  have hpaths : d.walked.met ++ (⟨t, level + 1⟩ :: log).map (·.script.path) =
      d₁.walked.met ++ log.map (·.script.path) := by
    rw [hmet, List.map_cons, List.append_assoc, List.singleton_append]
  constructor
  case met =>
    rw [hpaths]
    exact h.met
  case ended =>
    rw [hpaths]
    exact h.ended
  case levels =>
    intro m hm
    rw [List.length_cons]
    rcases List.mem_cons.mp hm with rfl | hm
    · simp only
      omega
    · have hlevel := h.levels m hm
      omega

theorem Explorer.Traces.append (hfront : x.Traces level d inner (.ok d₁))
    (hback : x.Traces level d₁ log outcome) : x.Traces level d (inner ++ log) outcome := by
  have hpaths : d.walked.met ++ (inner ++ log).map (·.script.path) =
      d₁.walked.met ++ log.map (·.script.path) := by
    rw [(hfront.ended d₁ rfl).2, List.map_append, List.append_assoc]
  constructor
  case met =>
    rw [hpaths]
    exact hback.met
  case ended =>
    rw [hpaths]
    exact hback.ended
  case levels =>
    intro m hm
    rw [List.length_append]
    rcases List.mem_append.mp hm with hm | hm
    · have hlevel := hfront.levels m hm
      omega
    · have hlevel := hback.levels m hm
      omega

/-!
## Stops

To pass a stop is to do what it does at first, and to process the module that it leads to.
-/

theorem arrive_of_lead {name : String} {line : Nat} {found : Option Location}
    (h : x.lead s name line d = .ok (d₁, found)) :
    x.arrive d.walked s name line (x.resolver.resolve x.files s name d.known) =
      .ok (found.toList.map .read, d₁.walked) := by
  unfold Explorer.lead Explorer.find at h
  generalize x.resolver.resolve x.files s name d.known = run at h ⊢
  rcases run with ⟨outcome, known⟩
  match outcome with
  | .error e => cases h
  | .ok none => cases h
  | .ok (some t) =>
      simp only [Explorer.arrive, Discovery.walked, contains_iff_lookup]
      simp only at h
      cases hentry : t.path == x.entry.path with
      | true =>
          simp only [hentry, if_true] at h
          cases h
      | false =>
          simp only [hentry, Bool.false_eq_true, if_false] at h ⊢
          cases hlookup : d.table.lookup t.path with
          | some id =>
              simp only [hlookup] at h
              cases h
              rfl
          | none =>
              simp only [hlookup] at h
              cases h
              simp [Discovery.number, Discovery.connect]

theorem perform_of_meet {found : Option Location} (h : x.meet s d stop = .ok (d₁, found)) :
    x.perform d.walked (.pass s stop) = .ok (found.toList.map .read, d₁.walked) := by
  cases stop with
  | name n =>
      by_cases hreserved : reservedStart.toList.isPrefixOf n.text.toList = true
      · rw [Explorer.meet, if_pos hreserved] at h
        cases h
      · rw [Explorer.meet, if_neg hreserved] at h
        cases h
        rw [Explorer.perform, if_neg hreserved]
        rfl
  | call call =>
      cases call with
      | unsupported line =>
          rw [Explorer.meet] at h
          cases h
      | module name line =>
          rw [Explorer.meet] at h
          rw [Explorer.perform]
          exact arrive_of_lead h

theorem old_of_meet (hproper : x.files.HasProperPlace) (hmodules : d.walked.OfModules x)
    (h : x.meet s d stop = .ok (d₁, none)) :
    d₁.walked.OfModules x ∧ d₁.walked.met = d.walked.met := by
  have hperform := perform_of_meet h
  have hsound := hmodules.sound.perform hproper hperform
  have hmet : d₁.walked.met = d.walked.met := by
    rcases perform_cases hperform with ⟨_, _, htask, _⟩ | ⟨_, _, _, _, hstate, _⟩ |
      ⟨_, _, _, _, _, _, _, _, ⟨_, _, hstate⟩ | ⟨_, hread, _⟩⟩
    · cases htask
    · rw [hstate]
    · rw [hstate]
    · cases hread
  constructor
  · exact ⟨hsound, hmet ▸ hmodules.files⟩
  · exact hmet

theorem new_of_meet {chunk : Chunk} (hproper : x.files.HasProperPlace) (hs : x.Reachable s)
    (hparse : x.parse s = .ok chunk) (hstop : stop ∈ blockStops chunk.body)
    (hmodules : d.walked.OfModules x) (h : x.meet s d stop = .ok (d₁, some t)) :
    x.Reachable t ∧ d₁.walked.OfModules x ∧ d₁.walked.met = d.walked.met ++ [t.path] := by
  have hperform := perform_of_meet h
  have hsound := hmodules.sound.perform hproper hperform
  rcases perform_cases hperform with ⟨_, _, htask, _⟩ | ⟨_, _, _, hread, _⟩ |
    ⟨u, name, line, v, known, htask, hrun, hentry, ⟨_, hread, _⟩ | ⟨_, hread, hstate⟩⟩
  · cases htask
  · cases hread
  · cases hread
  · cases htask
    cases hread
    have hleads : x.leadsTo d.walked.known s name = some t := by
      unfold Explorer.leadsTo
      rw [hrun]
    have hreachable := hs.call hparse hstop hmodules.sound.known hleads
    have hfile := file_of_resolve hproper hmodules.sound.known hrun
    have hmet : d₁.walked.met = d.walked.met ++ [t.path] := by rw [hstate]
    refine ⟨hreachable, ⟨hsound, ?files⟩, hmet⟩
    case files =>
      intro p hp
      rw [hmet] at hp
      rcases List.mem_append.mp hp with hold | hlast
      · exact hmodules.files p hold
      · rw [List.mem_singleton.mp hlast]
        exact ⟨⟨t, hreachable, rfl⟩, hfile, hentry⟩

theorem require_of_lead (explore : Location → Discover Chunk) (name : String) (line : Nat) :
    (x.require explore s name line d).map Prod.snd =
      match x.lead s name line d with
      | .error e => .error e
      | .ok (d₁, none) => .ok d₁
      | .ok (d₁, some t) =>
          (explore t d₁).map fun (tree, d₂) => d₂.store d₁.table.length tree := by
  rw [require_eq]
  unfold Explorer.lead
  cases x.find s name d with
  | error e => rfl
  | ok found =>
      rcases found with ⟨t, d₁⟩
      simp only
      cases t.path == x.entry.path with
      | true => rfl
      | false =>
          simp only [Bool.false_eq_true, if_false]
          cases d₁.table.lookup t.path with
          | some id => rfl
          | none =>
              have hlength : ((d₁.number t.path).2.connect s.path t.path line).table.length =
                  d₁.table.length + 1 := by
                simp [Discovery.number, Discovery.connect]
              simp only [hlength]
              cases explore t ((d₁.number t.path).2.connect s.path t.path line) <;> rfl

theorem pass_of_meet (explore : Location → Discover Chunk) :
    (x.pass explore s stop d).map Prod.snd =
      match x.meet s d stop with
      | .error e => .error e
      | .ok (d₁, none) => .ok d₁
      | .ok (d₁, some t) =>
          (explore t d₁).map fun (tree, d₂) => d₂.store d₁.table.length tree := by
  cases stop with
  | name n =>
      by_cases hreserved : reservedStart.toList.isPrefixOf n.text.toList = true
      · rw [Explorer.pass, Explorer.meet, if_pos hreserved, if_pos hreserved]
        rfl
      · rw [Explorer.pass, Explorer.meet, if_neg hreserved, if_neg hreserved]
        rfl
  | call call =>
      cases call with
      | unsupported line => rfl
      | module name line =>
          rw [Explorer.meet, ← require_of_lead, Explorer.pass]
          simp only [bind, StateT.bind, Except.bind, discover_pure]
          cases x.require explore s name line d <;> rfl

/-!
## Bounded explorations
-/

theorem passAll_cons (explore : Location → Discover Chunk) (stops : List WalkStop) :
    (x.passAll explore s (stop :: stops) d).map Prod.snd =
      ((x.pass explore s stop d).map Prod.snd).bind fun d₁ =>
        (x.passAll explore s stops d₁).map Prod.snd := by
  simp only [Explorer.passAll, bind, StateT.bind, Except.bind, discover_pure]
  cases x.pass explore s stop d with
  | error e => rfl
  | ok passed =>
      rcases passed with ⟨answers, d₁⟩
      simp only [Except.map]
      cases x.passAll explore s stops d₁ <;> rfl

/-- An exploration passes the stops of its script, and the numbers that are known then make the
tree. -/
theorem explore_of_passAll {chunk : Chunk} (depth : Nat) (hparse : x.parse s = .ok chunk) :
    x.explore (depth + 1) s d =
      ((x.passAll (x.explore depth) s (blockStops chunk.body) (d.enter s.path)).map
        Prod.snd).map fun d' => (x.treeOf d' s, d') := by
  have hwalk := (block_follows x (x.explore depth) s chunk.body).run (d.enter s.path)
  rw [explore_eq, hparse]
  simp only
  cases hpasses : x.passAll (x.explore depth) s (blockStops chunk.body) (d.enter s.path) with
  | error e =>
      rw [hpasses] at hwalk
      simp only at hwalk
      rw [hwalk]
      rfl
  | ok passed =>
      rcases passed with ⟨answers, d'⟩
      rcases visits_of_passAll (explored_of_explore x depth) s _ _ _ _ hpasses with ⟨new, hvisits⟩
      have hagree := (hvisits.passes (Grown.refl d')).1
      rw [hpasses] at hwalk
      rcases hwalk with ⟨body, hrun, hbody⟩
      rw [hrun, hbody _ hagree]
      simp only [Except.map, Explorer.treeOf, hparse]

/-- Whether explorations that are nested so deep end, when there is room for them. -/
def Explorer.EndsBelow (x : Explorer) (depth : Nat) : Prop :=
  ∀ level t d, x.Reachable t → d.walked.OfModules x →
    x.moduleFiles.ncard + 1 ≤ depth + d.walked.met.length →
    ∃ inner, x.Processing level t d (⟨t, level⟩ :: inner) (x.explore depth t d) ∧
      x.Traces level d inner ((x.explore depth t d).map Prod.snd)

/-- The passing of stops ends if the processing of every module that they lead to ends. -/
theorem passing_of_passAll {depth : Nat} {chunk : Chunk} (level : Nat)
    (hproper : x.files.HasProperPlace) (hends : x.EndsBelow depth) (hs : x.Reachable s)
    (hparse : x.parse s = .ok chunk) {stops : List WalkStop}
    (hstops : ∀ stop ∈ stops, stop ∈ blockStops chunk.body)
    (hmodules : d.walked.OfModules x)
    (hroom : x.moduleFiles.ncard ≤ depth + d.walked.met.length) :
    ∃ log, x.Passing level s stops d log ((x.passAll (x.explore depth) s stops d).map Prod.snd) ∧
      x.Traces level d log ((x.passAll (x.explore depth) s stops d).map Prod.snd) := by
  induction stops generalizing d with
  | nil =>
      have hlast : ∀ d', (.ok d : Except BundleError Discovery) = .ok d' → d' = d := by
        intro d' hd
        cases hd
        rfl
      exact ⟨[], .done, traces_empty hmodules hlast⟩
  | cons stop stops ih =>
      rw [List.forall_mem_cons] at hstops
      rw [passAll_cons, pass_of_meet]
      rcases hmeet : x.meet s d stop with e | ⟨d₁, new⟩
      · exact ⟨[], .fault hmeet, traces_empty hmodules (by intro d' hd; cases hd)⟩
      cases new with
      | none =>
          rcases old_of_meet hproper hmodules hmeet with ⟨hmodules₁, hmet⟩
          rcases ih hstops.2 hmodules₁ (by rw [hmet]; exact hroom) with ⟨log, hrest, htraces⟩
          exact ⟨log, .step hmeet hrest, htraces.of_met hmet⟩
      | some t =>
          rcases new_of_meet hproper hs hparse hstops.1 hmodules hmeet with
            ⟨hreachable, hmodules₁, hmet⟩
          have hlength : d₁.walked.met.length = d.walked.met.length + 1 := by
            rw [hmet, List.length_append, List.length_singleton]
          rcases hends (level + 1) t d₁ hreachable hmodules₁ (by omega) with
            ⟨inner, hinside, htraces⟩
          have hmodule := htraces.cons hmet
          simp only
          cases hexplore : x.explore depth t d₁ with
          | error e =>
              rw [hexplore] at hinside hmodule
              exact ⟨_, .failed hmeet hinside, hmodule⟩
          | ok explored =>
              rcases explored with ⟨tree, d₂⟩
              rw [hexplore] at hinside hmodule
              rcases hmodule.ended d₂ rfl with ⟨hmodules₂, hmet₂⟩
              have hgrown : d.walked.met.length ≤ d₂.walked.met.length := by
                rw [hmet₂, List.length_append]
                omega
              have hstored : (d₂.store d₁.table.length tree).walked = d₂.walked := rfl
              have hmodules₃ : (d₂.store d₁.table.length tree).walked.OfModules x := by
                rw [hstored]
                exact hmodules₂
              rcases ih hstops.2 hmodules₃ (by rw [hstored]; omega) with ⟨log, hrest, hlast⟩
              exact ⟨_, .new hmeet hinside hrest, hmodule.append (hlast.of_met (by rw [hstored]))⟩

/-- Every exploration ends that has room for the files of modules that were not met before:
each module that it processes is one of them. -/
theorem explore_ends (hproper : x.files.HasProperPlace) (depth : Nat) : x.EndsBelow depth := by
  induction depth with
  | zero =>
      intro level t d _ hmodules hroom
      have hbound := hmodules.bound
      omega
  | succ depth ih =>
      intro level t d hreachable hmodules hroom
      cases hparse : x.parse t with
      | error e =>
          have hexplore : x.explore (depth + 1) t d = .error e := by rw [explore_eq, hparse]
          rw [hexplore]
          exact ⟨[], .refused hparse, traces_empty hmodules (by intro d' hd; cases hd)⟩
      | ok chunk =>
          have hentered : (d.enter t.path).walked = d.walked := rfl
          have hmodules' : (d.enter t.path).walked.OfModules x := by rw [hentered]; exact hmodules
          have hroom' : x.moduleFiles.ncard ≤ depth + (d.enter t.path).walked.met.length := by
            rw [hentered]
            omega
          rcases passing_of_passAll level hproper ih hreachable hparse (fun _ hstop => hstop)
            hmodules' hroom' with ⟨log, hpasses, htraces⟩
          have hsame : ∀ run : Except BundleError Discovery,
              (run.map fun d' => (x.treeOf d' t, d')).map Prod.snd = run := by
            intro run
            cases run <;> rfl
          rw [explore_of_passAll depth hparse]
          refine ⟨log, .ended hparse hpasses, ?_⟩
          rw [hsame]
          exact htraces.of_met (by rw [hentered])

end Traces

/-!
## Discoveries
-/

def Explorer.start (x : Explorer) : Discovery :=
  { requires := (RequireGraph.addModule {} x.entry.path none).2 }

/-- What a discovery is that processes scripts behind its entry and ends: the only one, in
which different files of modules are processed, nested no deeper than there are scripts. -/
structure Explorer.Ends (x : Explorer) (modules : List Processed)
    (outcome : Except BundleError (Chunk × Discovery)) : Prop where
  runs : x.Processing 1 x.entry x.start (⟨x.entry, 1⟩ :: modules) outcome
  only : ∀ log outcome', x.Processing 1 x.entry x.start log outcome' →
    log = ⟨x.entry, 1⟩ :: modules ∧ outcome' = outcome
  once : modules.Pairwise fun m n => (n.script.path == m.script.path) = false
  files : ∀ m ∈ modules, m.script.path ∈ x.moduleFiles
  few : modules.length ≤ x.moduleFiles.ncard
  levels : ∀ m ∈ (⟨x.entry, 1⟩ : Processed) :: modules, m.level ≤ modules.length + 1

theorem start_met (x : Explorer) : x.start.walked.met = [] := rfl

theorem start_ofModules (x : Explorer) : x.start.walked.OfModules x := by
  have hknown : Known.IsSound x.files x.start.walked.known := by
    simp [Known.IsSound, Explorer.start, Discovery.walked]
  constructor
  case sound => exact ⟨hknown, by simp [start_met], by simp [start_met]⟩
  case files => simp [start_met]

theorem graph_eq_explore (x : Explorer) :
    x.graph = (x.explore x.depth x.entry x.start).map
      fun (main, found) => ⟨x.entry, main, found⟩ := by
  change (x.explore x.depth x.entry x.start).bind _ = _
  cases x.explore x.depth x.entry x.start <;> rfl

/-- Every discovery ends, whatever cycles its calls make.  It is the only one, processes the
entry and each file of a module at most once, and is nested no deeper than it processes
scripts, so that this bound on the depth of an exploration is never reached. -/
theorem graph_ends {x : Explorer} (hproper : x.files.HasProperPlace) :
    x.moduleFiles.Finite ∧ ∃ modules outcome, x.Ends modules outcome ∧
      (∀ depth, x.moduleFiles.ncard < depth → x.explore depth x.entry x.start = outcome) ∧
      x.graph = outcome.map fun (main, found) => ⟨x.entry, main, found⟩ := by
  have hstart := start_ofModules x
  have hends (depth : Nat) (hdepth : x.moduleFiles.ncard < depth) :=
    explore_ends hproper depth 1 x.entry x.start .entry hstart (by omega)
  rcases hends (x.moduleFiles.ncard + 1) (Nat.lt_succ_self _) with ⟨modules, hruns, htraces⟩
  rcases htraces.met with ⟨known, hmet⟩
  have hdepth : x.moduleFiles.ncard < x.depth := Nat.lt_succ_of_le moduleFiles_card
  have hsame : ∀ depth, x.moduleFiles.ncard < depth → x.explore depth x.entry x.start =
      x.explore (x.moduleFiles.ncard + 1) x.entry x.start := by
    intro depth hdepth
    rcases hends depth hdepth with ⟨_, hruns', _⟩
    exact (hruns.unique hruns').2
  refine ⟨moduleFiles_finite, modules, _, ?ends, hsame, ?graph⟩
  case ends =>
    constructor
    case runs => exact hruns
    case only =>
      intro log outcome' hruns'
      exact hruns.unique hruns'
    case once => exact List.pairwise_map.mp hmet.sound.distinct
    case files =>
      intro m hm
      exact hmet.files _ (List.mem_map.mpr ⟨m, hm, rfl⟩)
    case few => simpa [start_met] using hmet.bound
    case levels =>
      intro m hm
      rcases List.mem_cons.mp hm with rfl | hm
      · simp
      · have hlevel := htraces.levels m hm
        omega
  case graph =>
    rw [graph_eq_explore, hsame x.depth hdepth]

/-- Scripts that require each other. -/
theorem ringProject_ends :
    ringProject.files.HasProperPlace ∧ ringProject.moduleFiles.Finite ∧
      ∃ modules outcome, ringProject.Ends modules outcome ∧
        (∀ depth, ringProject.moduleFiles.ncard < depth →
          ringProject.explore depth ringProject.entry ringProject.start = outcome) ∧
        ringProject.graph = outcome.map fun (main, found) => ⟨ringProject.entry, main, found⟩ := by
  have hproper : ringProject.files.HasProperPlace := FileSystem.hasProperPlace_of_root rfl
  exact ⟨hproper, graph_ends hproper⟩

end LuaBundle
