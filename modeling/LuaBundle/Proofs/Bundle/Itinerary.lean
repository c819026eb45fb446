import LuaBundle.Proofs.Bundle.Origins
import LuaBundle.Proofs.Bundle.Success
import LuaBundle.Proofs.Project.Files

/-!
# The walk over a project

A depth-first walk over the scripts of a project that does not end at a fault.  What is to be
done next stands in a row: to read a script, or to pass a stop of one.  A script that is read
puts its stops in front of the row, and a call that leads to a new module the reading of that
module.  A task that finds a fault puts nothing there, and the walk goes on with the rest.
Whatever the scripts are, the walk comes to an end, and there is only one.
-/

namespace LuaBundle

open Lua

/-!
## Tasks

What a discovery still has to do is a row of tasks.  A task is done against what is known of
directories and the modules that were met, and may put new tasks in front.
-/

/-- What is known on the way: packages that were looked up, and the modules met. -/
structure WalkState where
  known : Known := []
  met : List Path := []

/-- What is to be done: to read a script, or to pass a stop of a script. -/
inductive Task where
  | read (script : Location)
  | pass (script : Location) (stop : WalkStop)

def Task.script : Task → Location
  | .read s => s
  | .pass s _ => s

/-- What is to be done when a call leads to a script, or the fault that it is then. -/
def Explorer.arrive (x : Explorer) (w : WalkState) (s : Location) (name : String) (line : Nat) :
    Except BundleError (Option Location) × Known → Except BundleError (List Task × WalkState)
  | (.error e, _) => .error e
  | (.ok none, _) => .error (.unresolved name s.path)
  | (.ok (some t), known) =>
      if t.path == x.entry.path then .error (.entryRequired s.path line name)
      else if w.met.contains t.path then .ok ([], { w with known })
      else .ok ([.read t], ⟨known, w.met ++ [t.path]⟩)

/-- Performs a task: what is to be done before all else then, or the fault that is found. -/
def Explorer.perform (x : Explorer) (w : WalkState) :
    Task → Except BundleError (List Task × WalkState)
  | .read s =>
      match x.parse s with
      | .error e => .error e
      | .ok chunk => .ok ((blockStops chunk.body).map (.pass s), w)
  | .pass s (.name n) =>
      if reservedStart.toList.isPrefixOf n.text.toList then .error (.reservedName s.path n.text)
      else .ok ([], w)
  | .pass s (.call (.unsupported line)) => .error (.unsupportedRequire s.path line)
  | .pass s (.call (.module name line)) =>
      x.arrive w s name line (x.resolver.resolve x.files s name w.known)

/-!
## Walks
-/

/-- A task that was performed, what was known then, and the fault that it found, if any. -/
structure Moment where
  state : WalkState
  task : Task
  fault : Option BundleError

inductive Explorer.Walk (x : Explorer) :
    WalkState → List Task → List Moment → WalkState → Prop where
  | done (w : WalkState) : x.Walk w [] [] w
  | fault {w task e tasks moments final} (h : x.perform w task = .error e)
      (rest : x.Walk w tasks moments final) :
      x.Walk w (task :: tasks) (⟨w, task, some e⟩ :: moments) final
  | step {w task first w₁ tasks moments final} (h : x.perform w task = .ok (first, w₁))
      (rest : x.Walk w₁ (first ++ tasks) moments final) :
      x.Walk w (task :: tasks) (⟨w, task, none⟩ :: moments) final

section Walk

variable {x : Explorer} {w w' final : WalkState} {tasks : List Task} {moments : List Moment}

theorem Explorer.Walk.unique {moments' : List Moment} {final' : WalkState}
    (h : x.Walk w tasks moments final) (h' : x.Walk w tasks moments' final') :
    moments' = moments ∧ final' = final := by
  induction h generalizing moments' final' with
  | done w =>
    cases h'
    exact ⟨rfl, rfl⟩
  | fault hperform _ ih =>
    cases h' with
    | fault hperform' rest' =>
      rw [hperform, Except.error.injEq] at hperform'
      obtain ⟨rfl, rfl⟩ := ih rest'
      rw [hperform']
      exact ⟨rfl, rfl⟩
    | step hperform' _ =>
      rw [hperform] at hperform'
      cases hperform'
  | step hperform _ ih =>
    cases h' with
    | fault hperform' _ =>
      rw [hperform] at hperform'
      cases hperform'
    | step hperform' rest' =>
      rw [hperform] at hperform'
      cases hperform'
      obtain ⟨rfl, rfl⟩ := ih rest'
      exact ⟨rfl, rfl⟩

theorem Explorer.Walk.append {more : List Task} {moments' : List Moment}
    (h : x.Walk w tasks moments w') (h' : x.Walk w' more moments' final) :
    x.Walk w (tasks ++ more) (moments ++ moments') final := by
  induction h with
  | done w => exact h'
  | fault hperform _ ih => exact .fault hperform (ih h')
  | @step w task first w₁ tasks moments final hperform _ ih =>
    have hrest := ih h'
    rw [List.append_assoc] at hrest
    exact .step hperform hrest

theorem Explorer.Walk.performs (h : x.Walk w tasks moments final) {task : Task}
    (htask : task ∈ tasks) : ∃ m ∈ moments, m.task = task := by
  induction h with
  | done w => cases htask
  | fault _ _ ih =>
    cases htask with
    | head => exact ⟨_, List.mem_cons_self, rfl⟩
    | tail _ htask =>
      obtain ⟨m, hm, heq⟩ := ih htask
      exact ⟨m, List.mem_cons_of_mem _ hm, heq⟩
  | step _ _ ih =>
    cases htask with
    | head => exact ⟨_, List.mem_cons_self, rfl⟩
    | tail _ htask =>
      obtain ⟨m, hm, heq⟩ := ih (List.mem_append_right _ htask)
      exact ⟨m, List.mem_cons_of_mem _ hm, heq⟩

/-- A script that is read, with all its stops if it can be parsed. -/
def Explorer.Passed (x : Explorer) (moments : List Moment) (s : Location) : Prop :=
  (∃ m ∈ moments, m.task = .read s) ∧
  ∀ chunk, x.parse s = .ok chunk → ∀ stop ∈ blockStops chunk.body,
    ∃ m ∈ moments, m.task = .pass s stop

theorem Explorer.Passed.cons {s : Location} (h : x.Passed moments s) (m : Moment) :
    x.Passed (m :: moments) s := by
  constructor
  · obtain ⟨m', hm', heq⟩ := h.1
    exact ⟨m', List.mem_cons_of_mem _ hm', heq⟩
  · intro chunk hparse stop hstop
    obtain ⟨m', hm', heq⟩ := h.2 chunk hparse stop hstop
    exact ⟨m', List.mem_cons_of_mem _ hm', heq⟩

theorem Explorer.Walk.passes_read (h : x.Walk w tasks moments final) {s : Location}
    (hread : .read s ∈ tasks) : x.Passed moments s := by
  induction h with
  | done w => cases hread
  | @fault w task e tasks moments final hperform rest ih =>
    rcases List.mem_cons.mp hread with rfl | hread
    · constructor
      · exact ⟨_, List.mem_cons_self, rfl⟩
      · intro chunk hparse
        simp only [Explorer.perform, hparse] at hperform
        cases hperform
    · exact (ih hread).cons _
  | @step w task first w₁ tasks moments final hperform rest ih =>
    rcases List.mem_cons.mp hread with rfl | hread
    · constructor
      · exact ⟨_, List.mem_cons_self, rfl⟩
      · intro chunk hparse stop hstop
        simp only [Explorer.perform, hparse, Except.ok.injEq, Prod.mk.injEq] at hperform
        have hfirst : Task.pass s stop ∈ first := by
          rw [← hperform.1]
          exact List.mem_map.mpr ⟨stop, hstop, rfl⟩
        obtain ⟨m, hm, heq⟩ := rest.performs (List.mem_append_left _ hfirst)
        exact ⟨m, List.mem_cons_of_mem _ hm, heq⟩
    · exact (ih (List.mem_append_right _ hread)).cons _

/-!
## Steps
-/

/-- What a task without a fault does: it leaves the modules met as they are, or meets one that
is to be read next. -/
theorem perform_cases {task : Task} {first : List Task} (h : x.perform w task = .ok (first, w')) :
    (∃ s chunk, task = .read s ∧ x.parse s = .ok chunk ∧
      first = (blockStops chunk.body).map (.pass s) ∧ w' = w) ∨
    (∃ s n, task = .pass s (.name n) ∧ first = [] ∧ w' = w ∧ ¬IsReserved n) ∨
    (∃ s name line t known, task = .pass s (.call (.module name line)) ∧
      x.resolver.resolve x.files s name w.known = (.ok (some t), known) ∧
      (t.path == x.entry.path) = false ∧
      ((w.met.contains t.path = true ∧ first = [] ∧ w' = { w with known }) ∨
       (w.met.contains t.path = false ∧ first = [.read t] ∧ w' = ⟨known, w.met ++ [t.path]⟩))) := by
  cases task with
  | read s =>
    left
    cases hparse : x.parse s with
    | error e => simp [Explorer.perform, hparse] at h
    | ok chunk =>
      simp only [Explorer.perform, hparse, Except.ok.injEq, Prod.mk.injEq] at h
      exact ⟨s, chunk, rfl, hparse, h.1.symm, h.2.symm⟩
  | pass s stop =>
    right
    cases stop with
    | name n =>
      left
      by_cases hreserved : IsReserved n
      · simp only [Explorer.perform, if_pos (show _ = true from hreserved)] at h
        cases h
      · simp only [Explorer.perform, if_neg (show ¬_ = true from hreserved)] at h
        cases h
        exact ⟨s, n, rfl, rfl, rfl, hreserved⟩
    | call call =>
      cases call with
      | unsupported line =>
        simp only [Explorer.perform] at h
        cases h
      | module name line =>
        right
        simp only [Explorer.perform] at h
        rcases hrun : x.resolver.resolve x.files s name w.known with ⟨outcome, known⟩
        rw [hrun] at h
        match outcome, hrun with
        | .error e, _ =>
          simp only [Explorer.arrive] at h
          cases h
        | .ok none, _ =>
          simp only [Explorer.arrive] at h
          cases h
        | .ok (some t), hrun =>
          refine ⟨s, name, line, t, known, rfl, hrun, ?_⟩
          cases hentry : t.path == x.entry.path with
          | true =>
            simp only [Explorer.arrive, hentry, if_true] at h
            cases h
          | false =>
            constructor
            · rfl
            · cases hmet : w.met.contains t.path with
              | true =>
                left
                simp only [Explorer.arrive, hentry, hmet, Bool.false_eq_true, if_false, if_true] at h
                cases h
                exact ⟨rfl, rfl, rfl⟩
              | false =>
                right
                simp only [Explorer.arrive, hentry, hmet, Bool.false_eq_true, if_false] at h
                cases h
                exact ⟨rfl, rfl, rfl⟩

theorem perform_met {task : Task} {first : List Task} (h : x.perform w task = .ok (first, w')) :
    w.met <+: w'.met := by
  rcases perform_cases h with ⟨s, chunk, _, _, _, rfl⟩ | ⟨s, n, _, _, rfl, _⟩ |
    ⟨s, name, line, t, known, _, _, _, ⟨_, _, rfl⟩ | ⟨_, _, rfl⟩⟩
  · exact List.prefix_rfl
  · exact List.prefix_rfl
  · exact List.prefix_rfl
  · exact List.prefix_append _ _

/-!
## Walks come to an end
-/

/-- A state in which the modules met are different files. -/
structure WalkState.Sound (x : Explorer) (w : WalkState) : Prop where
  known : Known.IsSound x.files w.known
  files : ∀ p ∈ w.met, ∃ entry ∈ x.files.entries, p = Path.ofNames entry.1
  distinct : w.met.Pairwise fun p q => (q == p) = false

theorem WalkState.Sound.nodup (h : w.Sound x) : w.met.Nodup := by
  apply h.distinct.imp
  rintro p q hne rfl
  rw [BEq.rfl] at hne
  cases hne

theorem WalkState.Sound.bound (h : w.Sound x) : w.met.length ≤ x.files.entries.length := by
  have hsubset : w.met ⊆ x.files.entries.map fun entry => Path.ofNames entry.1 := by
    intro p hp
    obtain ⟨entry, hentry, rfl⟩ := h.files p hp
    exact List.mem_map.mpr ⟨entry, hentry, rfl⟩
  simpa using h.nodup.length_le_of_subset hsubset

theorem FileSystem.IsPathOf.entry {fs : FileSystem} {p : Path} {place : Place}
    (h : fs.IsPathOf p place) : ∃ entry ∈ fs.entries, p = Path.ofNames entry.1 := by
  obtain ⟨content, hfile⟩ := h.file
  cases place with
  | nil => cases hfile
  | cons name names =>
    obtain ⟨found, hmem, hfound⟩ := mem_of_lookup hfile
    have hname := eq_of_beq hfound
    exact ⟨_, hmem, by rw [h.spelled, hname]⟩

theorem WalkState.Sound.perform (hproper : x.files.HasProperPlace) (h : w.Sound x) {task : Task}
    {first : List Task} (hperform : x.perform w task = .ok (first, w')) : w'.Sound x := by
  rcases perform_cases hperform with ⟨s, chunk, _, _, _, rfl⟩ | ⟨s, n, _, _, rfl, _⟩ |
    ⟨s, name, line, t, known, _, hrun, _, hmet⟩
  · exact h
  · exact h
  · have hknown := (learns_resolve x.resolver x.files s name).keeps hrun h.known
    rcases hmet with ⟨_, _, rfl⟩ | ⟨hnew, _, rfl⟩
    · exact ⟨hknown, h.files, h.distinct⟩
    · constructor
      case known => exact hknown
      case files =>
        intro p hp
        cases List.mem_append.mp hp with
        | inl hold => exact h.files p hold
        | inr hlast =>
          rw [List.mem_singleton.mp hlast]
          obtain ⟨place, hplace⟩ := file_of_resolve hproper h.known hrun
          exact hplace.entry
      case distinct =>
        apply List.pairwise_append.mpr
        refine ⟨h.distinct, List.pairwise_singleton _ _, ?_⟩
        intro p hp q hq
        rw [List.mem_singleton.mp hq]
        rw [List.contains_eq_any_beq, List.any_eq_false] at hnew
        simpa using hnew p hp

theorem Explorer.Walk.sound (hproper : x.files.HasProperPlace) (hsound : w.Sound x)
    (h : x.Walk w tasks moments final) : final.Sound x ∧ w.met <+: final.met := by
  induction h with
  | done w => exact ⟨hsound, List.prefix_rfl⟩
  | fault _ _ ih => exact ih hsound
  | step hperform _ ih =>
    obtain ⟨hfinal, hgrown⟩ := ih (hsound.perform hproper hperform)
    exact ⟨hfinal, (perform_met hperform).trans hgrown⟩

/-- The stops of a script can be walked if modules that are met on the way can be read. -/
theorem walk_stops (hproper : x.files.HasProperPlace) {room : Nat}
    (hreads : ∀ t (w : WalkState), w.Sound x → x.files.entries.length + 1 ≤ room + w.met.length →
      ∃ moments final, x.Walk w [.read t] moments final)
    (s : Location) (stops : List WalkStop) (w : WalkState) (hsound : w.Sound x)
    (hroom : x.files.entries.length ≤ room + w.met.length) :
    ∃ moments final, x.Walk w (stops.map (.pass s)) moments final := by
  induction stops generalizing w with
  | nil => exact ⟨[], w, .done w⟩
  | cons stop stops ih =>
    rw [List.map_cons]
    cases hperform : x.perform w (.pass s stop) with
    | error e =>
      obtain ⟨moments, final, hrest⟩ := ih w hsound hroom
      exact ⟨_, final, .fault hperform hrest⟩
    | ok next =>
      obtain ⟨first, w₁⟩ := next
      have hsound₁ := hsound.perform hproper hperform
      have hgrown := (perform_met hperform).length_le
      have hfirst : ∃ moments w₂, x.Walk w₁ first moments w₂ := by
        rcases perform_cases hperform with ⟨_, _, htask, _⟩ | ⟨_, _, _, rfl, _⟩ |
          ⟨_, _, _, t, _, _, _, _, ⟨_, rfl, _⟩ | ⟨_, rfl, hmore⟩⟩
        · cases htask
        · exact ⟨[], w₁, .done w₁⟩
        · exact ⟨[], w₁, .done w₁⟩
        · have hlength : w₁.met.length = w.met.length + 1 := by simp [hmore]
          exact hreads t w₁ hsound₁ (by omega)
      obtain ⟨moments, w₂, hwalk⟩ := hfirst
      obtain ⟨hsound₂, hgrown₂⟩ := hwalk.sound hproper hsound₁
      have hlonger := hgrown₂.length_le
      obtain ⟨moments', final, hrest⟩ := ih w₂ hsound₂ (by omega)
      exact ⟨_, final, .step hperform (hwalk.append hrest)⟩

/-- A script can be read when there is room for so many modules, itself among them: every
module that is met leaves less. -/
theorem walk_read (hproper : x.files.HasProperPlace) (room : Nat) (s : Location) (w : WalkState)
    (hsound : w.Sound x) (hroom : x.files.entries.length + 1 ≤ room + w.met.length) :
    ∃ moments final, x.Walk w [.read s] moments final := by
  induction room generalizing s w with
  | zero =>
    have hbound := hsound.bound
    omega
  | succ room ih =>
    cases hparse : x.parse s with
    | error e =>
      have hperform : x.perform w (.read s) = .error e := by rw [Explorer.perform, hparse]
      exact ⟨_, w, .fault hperform (.done w)⟩
    | ok chunk =>
      have hperform :
          x.perform w (.read s) = .ok ((blockStops chunk.body).map (.pass s), w) := by
        rw [Explorer.perform, hparse]
      obtain ⟨moments, final, hwalk⟩ :=
        walk_stops hproper ih s (blockStops chunk.body) w hsound (by omega)
      rw [← List.append_nil ((blockStops chunk.body).map _)] at hwalk
      exact ⟨_, final, .step hperform hwalk⟩

end Walk

end LuaBundle
