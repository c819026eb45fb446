import LuaBundle.Proofs.Bundle.Itinerary

/-!
# Faults

A discovery fails exactly when the walk over the project finds a fault, and with the first
fault that it finds.  Every fault that the walk finds is one of a script that the walk has
reached, and tells what is wrong there.
-/

namespace LuaBundle

open Lua

/-!
## A discovery is a walk
-/

def Discovery.walked (d : Discovery) : WalkState :=
  ⟨d.known, d.table.map Prod.fst⟩

/-- A run that stops at the first fault that is found in a row of tasks, if there is one, and
otherwise ends where the walk through the row does. -/
structure Explorer.Agrees (x : Explorer) (run : Except BundleError Discovery) (w : WalkState)
    (tasks : List Task) : Prop where
  fault : ∀ e, run = .error e → ∀ rest moments final, x.Walk w (tasks ++ rest) moments final →
    moments.findSome? Moment.fault = some e
  passed : ∀ d', run = .ok d' → ∀ rest moments final, x.Walk w (tasks ++ rest) moments final →
    ∃ front back, moments = front ++ back ∧ (∀ m ∈ front, m.fault = none) ∧
      x.Walk d'.walked rest back final
  sound : ∀ d', run = .ok d' → d'.walked.Sound x
  grown : ∀ d', run = .ok d' → w.met.length ≤ d'.walked.met.length

section Agreement

variable {x : Explorer} {w w₁ : WalkState} {tasks more : List Task} {task : Task} {d d' : Discovery}
  {e : BundleError} {run : Except BundleError Discovery}

theorem agrees_nil (hsound : d.walked.Sound x) : x.Agrees (.ok d) d.walked [] := by
  constructor
  case fault =>
    intro e h
    cases h
  case passed =>
    intro d' h rest moments final hwalk
    cases h
    exact ⟨[], moments, rfl, by simp, hwalk⟩
  case sound =>
    intro d' h
    cases h
    exact hsound
  case grown =>
    intro d' h
    cases h
    exact Nat.le_refl _

theorem agrees_fault (h : x.perform w task = .error e) : x.Agrees (.error e) w [task] := by
  constructor
  case fault =>
    intro e' he rest moments final hwalk
    cases he
    cases hwalk with
    | fault h' _ =>
      rw [h, Except.error.injEq] at h'
      simp [h']
    | step h' _ =>
      rw [h] at h'
      cases h'
  case passed =>
    intro d' h
    cases h
  case sound =>
    intro d' h
    cases h
  case grown =>
    intro d' h
    cases h

theorem agrees_step (h : x.perform w task = .ok (tasks, w₁)) (hrun : x.Agrees run w₁ tasks) :
    x.Agrees run w [task] := by
  have hwalk : ∀ {rest moments final}, x.Walk w ([task] ++ rest) moments final →
      ∃ moments', moments = ⟨w, task, none⟩ :: moments' ∧
        x.Walk w₁ (tasks ++ rest) moments' final := by
    intro rest moments final hwalk
    cases hwalk with
    | fault h' _ =>
      rw [h] at h'
      cases h'
    | step h' hrest =>
      rw [h, Except.ok.injEq, Prod.mk.injEq] at h'
      obtain ⟨rfl, rfl⟩ := h'
      exact ⟨_, rfl, hrest⟩
  constructor
  case fault =>
    intro e he rest moments final hfull
    obtain ⟨moments', rfl, hrest⟩ := hwalk hfull
    rw [List.findSome?_cons]
    exact hrun.fault e he rest moments' final hrest
  case passed =>
    intro d' hd rest moments final hfull
    obtain ⟨moments', rfl, hrest⟩ := hwalk hfull
    obtain ⟨front, back, rfl, hfront, hback⟩ := hrun.passed d' hd rest moments' final hrest
    refine ⟨_ :: front, back, rfl, ?_, hback⟩
    intro m hm
    rcases List.mem_cons.mp hm with rfl | hm
    · rfl
    · exact hfront m hm
  case sound => exact hrun.sound
  case grown =>
    intro d' hd
    exact Nat.le_trans (perform_met h).length_le (hrun.grown d' hd)

theorem Explorer.Agrees.append_fault (h : x.Agrees (.error e) w tasks) :
    x.Agrees (.error e) w (tasks ++ more) := by
  constructor
  case fault =>
    intro e' he rest moments final hwalk
    rw [List.append_assoc] at hwalk
    exact h.fault e' he _ moments final hwalk
  case passed =>
    intro d' h
    cases h
  case sound =>
    intro d' h
    cases h
  case grown =>
    intro d' h
    cases h

theorem Explorer.Agrees.append (h : x.Agrees (.ok d) w tasks)
    (h' : x.Agrees run d.walked more) : x.Agrees run w (tasks ++ more) := by
  constructor
  case fault =>
    intro e he rest moments final hwalk
    rw [List.append_assoc] at hwalk
    obtain ⟨front, back, rfl, hfront, hback⟩ := h.passed d rfl _ moments final hwalk
    have hnone : front.findSome? Moment.fault = none := List.findSome?_eq_none_iff.mpr hfront
    rw [List.findSome?_append, hnone]
    exact h'.fault e he rest back final hback
  case passed =>
    intro d' hd rest moments final hwalk
    rw [List.append_assoc] at hwalk
    obtain ⟨front, back, rfl, hfront, hback⟩ := h.passed d rfl _ moments final hwalk
    obtain ⟨front', back', rfl, hfront', hback'⟩ := h'.passed d' hd rest back final hback
    refine ⟨front ++ front', back', by rw [List.append_assoc], ?_, hback'⟩
    intro m hm
    cases List.mem_append.mp hm with
    | inl hm => exact hfront m hm
    | inr hm => exact hfront' m hm
  case sound => exact h'.sound
  case grown =>
    intro d' hd
    exact Nat.le_trans (h.grown d rfl) (h'.grown d' hd)

theorem Explorer.Agrees.of_walked (h : x.Agrees (.ok d) w tasks) (same : d'.walked = d.walked) :
    x.Agrees (.ok d') w tasks := by
  constructor
  case fault =>
    intro e h
    cases h
  case passed =>
    intro d'' hd
    cases hd
    rw [same]
    exact h.passed d rfl
  case sound =>
    intro d'' hd
    cases hd
    rw [same]
    exact h.sound d rfl
  case grown =>
    intro d'' hd
    cases hd
    rw [same]
    exact h.grown d rfl

/-!
## Stops
-/

theorem contains_iff_lookup (table : ModuleTable) (p : Path) :
    (table.map Prod.fst).contains p = (table.lookup p).isSome := by
  cases hlookup : table.lookup p with
  | none =>
    rw [List.contains_eq_any_beq, Option.isSome_none, List.any_eq_false]
    intro q hq
    obtain ⟨pair, hpair, rfl⟩ := List.mem_map.mp hq
    rw [lookup_eq_none_of_beq.mp hlookup pair hpair]
    simp
  | some id =>
    obtain ⟨q, hq, hsame⟩ := mem_of_lookup hlookup
    rw [List.contains_eq_any_beq, Option.isSome_some, List.any_eq_true]
    exact ⟨q, List.mem_map.mpr ⟨_, hq, rfl⟩, hsame⟩

/-- Explorations of scripts agree with reading them, when there is room for more modules. -/
def Explorer.AgreesBelow (x : Explorer) (depth : Nat) (explore : Location → Discover Chunk) :
    Prop :=
  ∀ t d, d.walked.Sound x → x.files.entries.length + 1 ≤ depth + d.walked.met.length →
    x.Agrees ((explore t d).map Prod.snd) d.walked [.read t]

variable {depth : Nat} {explore : Location → Discover Chunk} {s : Location}

theorem require_agrees (hproper : x.files.HasProperPlace) (hexplore : x.AgreesBelow depth explore)
    (name : String) (line : Nat) (hsound : d.walked.Sound x)
    (hroom : x.files.entries.length ≤ depth + d.walked.met.length) :
    x.Agrees ((x.require explore s name line d).map Prod.snd) d.walked
      [.pass s (.call (.module name line))] := by
  rw [require_eq]
  unfold Explorer.find
  cases hrun : x.resolver.resolve x.files s name d.known with
  | mk outcome known =>
  have hperform : x.perform d.walked (.pass s (.call (.module name line))) =
      x.arrive d.walked s name line (outcome, known) := by
    rw [← hrun, Explorer.perform]
    rfl
  cases outcome with
  | error e => exact agrees_fault hperform
  | ok found =>
  cases found with
  | none => exact agrees_fault hperform
  | some t =>
    simp only [Explorer.arrive] at hperform
    have hmet : d.walked.met.contains t.path = (d.table.lookup t.path).isSome :=
      contains_iff_lookup d.table t.path
    cases hentry : t.path == x.entry.path with
    | true =>
      rw [hentry, if_pos rfl] at hperform
      simp only [hentry, if_true]
      exact agrees_fault hperform
    | false =>
      rw [hentry, if_neg Bool.false_ne_true, hmet] at hperform
      simp only [hentry, Bool.false_eq_true, if_false]
      cases hlookup : d.table.lookup t.path with
      | some id =>
        rw [hlookup, Option.isSome_some, if_pos rfl] at hperform
        apply agrees_step hperform
        exact agrees_nil (d := Discovery.connect { d with known } s.path t.path line)
          (hsound.perform hproper hperform)
      | none =>
        rw [hlookup, Option.isSome_none, if_neg Bool.false_ne_true] at hperform
        apply agrees_step hperform
        have hwalked : ((Discovery.number { d with known } t.path).2.connect
            s.path t.path line).walked = ⟨known, d.walked.met ++ [t.path]⟩ := by
          simp [Discovery.number, Discovery.connect, Discovery.walked]
        have hread := hexplore t
          ((Discovery.number { d with known } t.path).2.connect s.path t.path line)
          (by rw [hwalked]; exact hsound.perform hproper hperform)
          (by rw [hwalked, List.length_append, List.length_singleton]; omega)
        rw [hwalked] at hread
        cases hexplored : explore t
            ((Discovery.number { d with known } t.path).2.connect s.path t.path line) with
        | error e =>
          rw [hexplored] at hread
          exact hread
        | ok answer =>
          rw [hexplored] at hread
          exact hread.of_walked rfl

theorem pass_agrees (hproper : x.files.HasProperPlace) (hexplore : x.AgreesBelow depth explore)
    (stop : WalkStop) (hsound : d.walked.Sound x)
    (hroom : x.files.entries.length ≤ depth + d.walked.met.length) :
    x.Agrees ((x.pass explore s stop d).map Prod.snd) d.walked [.pass s stop] := by
  cases stop with
  | name n =>
    by_cases hreserved : reservedStart.toList.isPrefixOf n.text.toList = true
    · have hperform : x.perform d.walked (.pass s (.name n)) =
          .error (.reservedName s.path n.text) := by
        rw [Explorer.perform, if_pos hreserved]
      rw [Explorer.pass, if_pos hreserved]
      exact agrees_fault hperform
    · have hperform : x.perform d.walked (.pass s (.name n)) = .ok ([], d.walked) := by
        rw [Explorer.perform, if_neg hreserved]
      rw [Explorer.pass, if_neg hreserved]
      exact agrees_step hperform (agrees_nil hsound)
  | call call =>
    cases call with
    | unsupported line =>
      have hperform : x.perform d.walked (.pass s (.call (.unsupported line))) =
          .error (.unsupportedRequire s.path line) := by
        rw [Explorer.perform]
      exact agrees_fault hperform
    | module name line =>
      have hrequire := require_agrees (s := s) hproper hexplore name line hsound hroom
      rw [Explorer.pass]
      simp only [bind, StateT.bind, Except.bind, discover_pure]
      cases hrun : x.require explore s name line d with
      | error e =>
        rw [hrun] at hrequire
        exact hrequire
      | ok answer =>
        rw [hrun] at hrequire
        exact hrequire

theorem passAll_agrees (hproper : x.files.HasProperPlace)
    (hexplore : x.AgreesBelow depth explore) (stops : List WalkStop) (hsound : d.walked.Sound x)
    (hroom : x.files.entries.length ≤ depth + d.walked.met.length) :
    x.Agrees ((x.passAll explore s stops d).map Prod.snd) d.walked (stops.map (.pass s)) := by
  induction stops generalizing d with
  | nil => exact agrees_nil hsound
  | cons stop stops ih =>
    have hpass := pass_agrees (s := s) hproper hexplore stop hsound hroom
    rw [Explorer.passAll, List.map_cons]
    simp only [bind, StateT.bind, Except.bind, discover_pure]
    cases hrun : x.pass explore s stop d with
    | error e =>
      rw [hrun] at hpass
      exact hpass.append_fault
    | ok answer =>
      obtain ⟨answers, d₁⟩ := answer
      rw [hrun] at hpass
      have hgrown := hpass.grown d₁ rfl
      have hrest := ih (hpass.sound d₁ rfl) (by omega)
      simp only
      cases hmore : x.passAll explore s stops d₁ with
      | error e =>
        rw [hmore] at hrest
        exact hpass.append hrest
      | ok answer =>
        rw [hmore] at hrest
        exact hpass.append hrest

/-!
## Explorations
-/

/-- Explorations agree with walks: where the depth is used up, there is no room for another
module. -/
theorem explore_agrees (hproper : x.files.HasProperPlace) (depth : Nat) :
    x.AgreesBelow depth (x.explore depth) := by
  induction depth with
  | zero =>
    intro s d hsound hroom
    have hbound := hsound.bound
    omega
  | succ depth ih =>
    intro s d hsound hroom
    rw [explore_eq]
    cases hparse : x.parse s with
    | error e =>
      have hperform : x.perform d.walked (.read s) = .error e := by rw [Explorer.perform, hparse]
      exact agrees_fault hperform
    | ok chunk =>
      have hperform : x.perform d.walked (.read s) =
          .ok ((blockStops chunk.body).map (.pass s), d.walked) := by
        rw [Explorer.perform, hparse]
      have hstops := passAll_agrees (s := s) (d := d.enter s.path) hproper ih
        (blockStops chunk.body) hsound (by change _ ≤ depth + d.walked.met.length; omega)
      have hwalk := (block_follows x (x.explore depth) s chunk.body).run (d.enter s.path)
      simp only
      cases hpass : x.passAll (x.explore depth) s (blockStops chunk.body) (d.enter s.path) with
      | error e =>
        rw [hpass] at hwalk hstops
        simp only at hwalk
        rw [hwalk]
        exact agrees_step hperform hstops
      | ok answer =>
        obtain ⟨answers, d'⟩ := answer
        rw [hpass] at hwalk hstops
        obtain ⟨body, hrun, _⟩ := hwalk
        rw [hrun]
        exact agrees_step hperform hstops

end Agreement

/-!
## What a fault says

A fault names its script, and the call or the name that is to blame.
-/

def Lua.Args.IsLiteral (arguments : Args) (name : String) : Prop :=
  ∃ literal, (arguments = .list [.string literal] ∨ arguments = .string literal) ∧
    moduleName literal = name

/-- Whether a script calls `require` with arguments in a line, wherever that is. -/
def Lua.Chunk.Requires (chunk : Chunk) (arguments : Args) (line : Nat) : Prop :=
  ∃ n inParens, Expr.call (.name n) arguments inParens line ∈ blockNodes chunk.body ∧
    n.text = "require"

inductive Explorer.Fault (x : Explorer) (w : WalkState) (s : Location) : BundleError → Prop where
  | unreadable {trouble} (h : x.files.read s.path = .error trouble) :
      x.Fault w s (.unreadable s.path)
  | unparsable {bytes e} (hread : x.files.read s.path = .ok bytes)
      (h : parseBytes bytes = .error e) : x.Fault w s (.unparsable s.path e)
  | reserved {chunk text} (hparse : x.parse s = .ok chunk) (hname : text ∈ blockNames chunk.body)
      (h : reservedStart.toList <+: text.toList) : x.Fault w s (.reservedName s.path text)
  | unsupported {chunk arguments line} (hparse : x.parse s = .ok chunk)
      (hcall : chunk.Requires arguments line) (h : ∀ name, ¬arguments.IsLiteral name) :
      x.Fault w s (.unsupportedRequire s.path line)
  | unresolved {chunk arguments name line} (hparse : x.parse s = .ok chunk)
      (hcall : chunk.Requires arguments line) (hliteral : arguments.IsLiteral name)
      (h : (x.resolver.resolve x.files s name w.known).1 = .ok none) :
      x.Fault w s (.unresolved name s.path)
  | entryRequired {chunk arguments name line t} (hparse : x.parse s = .ok chunk)
      (hcall : chunk.Requires arguments line) (hliteral : arguments.IsLiteral name)
      (h : (x.resolver.resolve x.files s name w.known).1 = .ok (some t))
      (hentry : (t.path == x.entry.path) = true) :
      x.Fault w s (.entryRequired s.path line name)
  /-- The search for a module meets a fault of its own. -/
  | search {chunk arguments name line e} (hparse : x.parse s = .ok chunk)
      (hcall : chunk.Requires arguments line) (hliteral : arguments.IsLiteral name)
      (h : (x.resolver.resolve x.files s name w.known).1 = .error e) : x.Fault w s e

section Truth

variable {x : Explorer} {w final : WalkState} {s : Location} {chunk : Chunk} {e : BundleError}

theorem requireCall_cases {e : Expr} {call : RequireCall} (h : requireCall? e = some call) :
    ∃ n arguments inParens line, e = .call (.name n) arguments inParens line ∧
      n.text = "require" ∧
      ((∃ name, call = .module name line ∧ arguments.IsLiteral name) ∨
        call = .unsupported line ∧ ∀ name, ¬arguments.IsLiteral name) := by
  unfold requireCall? at h
  split at h
  · rename_i base arguments inParens line
    split at h
    · rename_i hrequire
      unfold isRequire at hrequire
      split at hrequire
      · rename_i n
        refine ⟨n, arguments, inParens, line, rfl, eq_of_beq hrequire, ?_⟩
        split at h
        · rename_i literal
          cases h
          exact .inl ⟨_, rfl, literal, .inl rfl, rfl⟩
        · rename_i literal
          cases h
          exact .inl ⟨_, rfl, literal, .inr rfl, rfl⟩
        · rename_i hlist hstring
          cases h
          right
          constructor
          · rfl
          · rintro name ⟨literal, heq | heq, _⟩
            · exact hlist literal heq
            · exact hstring literal heq
      · cases hrequire
    · cases h
  · cases h

theorem requires_of_module {name : String} {line : Nat}
    (h : .call (.module name line) ∈ blockStops chunk.body) :
    ∃ arguments, chunk.Requires arguments line ∧ arguments.IsLiteral name := by
  obtain ⟨e, hmem, hcall⟩ := (block_drawn chunk.body).call _ h
  obtain ⟨n, arguments, inParens, line', rfl, hn, ⟨name', heq, hliteral⟩ | ⟨heq, _⟩⟩ :=
    requireCall_cases hcall
  · cases heq
    exact ⟨arguments, ⟨n, inParens, hmem, hn⟩, hliteral⟩
  · cases heq

theorem requires_of_unsupported {line : Nat}
    (h : .call (.unsupported line) ∈ blockStops chunk.body) :
    ∃ arguments, chunk.Requires arguments line ∧ ∀ name, ¬arguments.IsLiteral name := by
  obtain ⟨e, hmem, hcall⟩ := (block_drawn chunk.body).call _ h
  obtain ⟨n, arguments, inParens, line', rfl, hn, ⟨name', heq, _⟩ | ⟨heq, hnone⟩⟩ :=
    requireCall_cases hcall
  · cases heq
  · cases heq
    exact ⟨arguments, ⟨n, inParens, hmem, hn⟩, hnone⟩

theorem fault_of_parse (h : x.parse s = .error e) : x.Fault w s e := by
  unfold Explorer.parse at h
  cases hread : x.files.read s.path with
  | error trouble =>
    rw [hread] at h
    cases h
    exact .unreadable hread
  | ok bytes =>
    rw [hread] at h
    cases hparse : parseBytes bytes with
    | error cause =>
      simp only [hparse, Except.mapError] at h
      cases h
      exact .unparsable hread hparse
    | ok chunk =>
      simp only [hparse, Except.mapError] at h
      cases h

theorem fault_of_pass {stop : WalkStop} (hparse : x.parse s = .ok chunk)
    (hstop : stop ∈ blockStops chunk.body) (h : x.perform w (.pass s stop) = .error e) :
    x.Fault w s e := by
  cases stop with
  | name n =>
    by_cases hreserved : reservedStart.toList.isPrefixOf n.text.toList = true
    · rw [Explorer.perform, if_pos hreserved] at h
      cases h
      exact .reserved hparse ((block_drawn chunk.body).name n hstop)
        (List.isPrefixOf_iff_prefix.mp hreserved)
    · rw [Explorer.perform, if_neg hreserved] at h
      cases h
  | call call =>
    cases call with
    | unsupported line =>
      rw [Explorer.perform] at h
      cases h
      obtain ⟨arguments, hcall, hnone⟩ := requires_of_unsupported hstop
      exact .unsupported hparse hcall hnone
    | module name line =>
      obtain ⟨arguments, hcall, hliteral⟩ := requires_of_module hstop
      rw [Explorer.perform] at h
      rcases hrun : x.resolver.resolve x.files s name w.known with ⟨outcome, known⟩
      rw [hrun] at h
      have houtcome : (x.resolver.resolve x.files s name w.known).1 = outcome := by rw [hrun]
      cases outcome with
      | error e' =>
        simp only [Explorer.arrive] at h
        cases h
        exact .search hparse hcall hliteral houtcome
      | ok found =>
      cases found with
      | none =>
        simp only [Explorer.arrive] at h
        cases h
        exact .unresolved hparse hcall hliteral houtcome
      | some t =>
        simp only [Explorer.arrive] at h
        cases hentry : t.path == x.entry.path with
        | true =>
          rw [hentry, if_pos rfl] at h
          cases h
          exact .entryRequired hparse hcall hliteral houtcome hentry
        | false =>
          rw [hentry, if_neg Bool.false_ne_true] at h
          split at h <;> cases h

/-- Whether a task has been come to: it is about the entry or a module that was met, and a stop
is one of the script. -/
structure Explorer.IsDue (x : Explorer) (w : WalkState) (task : Task) : Prop where
  reached : task.script.path ∈ x.entry.path :: w.met
  stop : ∀ s stop, task = .pass s stop → ∃ chunk, x.parse s = .ok chunk ∧
    stop ∈ blockStops chunk.body

theorem Explorer.IsDue.fault {task : Task} (h : x.IsDue w task)
    (hperform : x.perform w task = .error e) : x.Fault w task.script e := by
  cases task with
  | read s =>
    cases hparse : x.parse s with
    | error e' =>
      simp only [Explorer.perform, hparse, Except.error.injEq] at hperform
      rw [← hperform]
      exact fault_of_parse hparse
    | ok chunk =>
      simp only [Explorer.perform, hparse] at hperform
      cases hperform
  | pass s stop =>
    obtain ⟨chunk, hparse, hstop⟩ := h.stop s stop rfl
    exact fault_of_pass hparse hstop hperform

theorem Explorer.IsDue.step {task : Task} {first : List Task} {w₁ : WalkState}
    (h : x.IsDue w task) (hperform : x.perform w task = .ok (first, w₁)) :
    ∀ task' ∈ first, x.IsDue w₁ task' := by
  rcases perform_cases hperform with ⟨s, chunk, rfl, hparse, rfl, rfl⟩ | ⟨_, _, _, rfl, _⟩ |
    ⟨s, name, line, t, known, rfl, _, _, ⟨_, rfl, _⟩ | ⟨_, rfl, rfl⟩⟩
  · intro task' htask'
    obtain ⟨stop, hstop, rfl⟩ := List.mem_map.mp htask'
    constructor
    case reached => exact h.reached
    case stop =>
      intro s' stop' heq
      cases heq
      exact ⟨chunk, hparse, hstop⟩
  · simp
  · simp
  · intro task' htask'
    cases List.mem_singleton.mp htask'
    constructor
    case reached => simp [Task.script]
    case stop =>
      intro s' stop' heq
      cases heq

theorem Explorer.IsDue.grown {task : Task} {w₁ : WalkState} (h : x.IsDue w task)
    (hgrown : w.met <+: w₁.met) : x.IsDue w₁ task := by
  constructor
  case reached =>
    rcases List.mem_cons.mp h.reached with heq | hmem
    · rw [heq]
      exact List.mem_cons_self
    · exact List.mem_cons_of_mem _ (hgrown.subset hmem)
  case stop => exact h.stop

theorem Explorer.Walk.faults {tasks : List Task} {moments : List Moment}
    (h : x.Walk w tasks moments final) (hdue : ∀ task ∈ tasks, x.IsDue w task) :
    ∀ m ∈ moments, ∀ e, m.fault = some e →
      m.task.script.path ∈ x.entry.path :: m.state.met ∧ x.Fault m.state m.task.script e := by
  induction h with
  | done w => simp
  | @fault w task e tasks moments final hperform _ ih =>
    intro m hm e' he
    rcases List.mem_cons.mp hm with rfl | hm
    · cases he
      have htask := hdue task List.mem_cons_self
      exact ⟨htask.reached, htask.fault hperform⟩
    · exact ih (fun task htask => hdue task (List.mem_cons_of_mem _ htask)) m hm e' he
  | @step w task first w₁ tasks moments final hperform _ ih =>
    intro m hm e' he
    rcases List.mem_cons.mp hm with rfl | hm
    · cases he
    · apply ih _ m hm e' he
      intro task' htask'
      cases List.mem_append.mp htask' with
      | inl hnew => exact (hdue task List.mem_cons_self).step hperform task' hnew
      | inr hold =>
        exact (hdue task' (List.mem_cons_of_mem _ hold)).grown (perform_met hperform)

theorem Explorer.Walk.passes_met {tasks : List Task} {moments : List Moment}
    (h : x.Walk w tasks moments final) {p : Path} (hp : p ∈ final.met) :
    p ∈ w.met ∨ ∃ s, s.path = p ∧ x.Passed moments s := by
  induction h with
  | done w => exact .inl hp
  | fault _ _ ih =>
    rcases ih hp with hmet | ⟨s, hs, hpassed⟩
    · exact .inl hmet
    · exact .inr ⟨s, hs, hpassed.cons _⟩
  | @step w task first w₁ tasks moments final hperform hrest ih =>
    rcases ih hp with hmet | ⟨s, hs, hpassed⟩
    · rcases perform_cases hperform with ⟨_, _, _, _, _, rfl⟩ | ⟨_, _, _, _, rfl, _⟩ |
        ⟨s, name, line, t, known, _, _, _, ⟨_, _, rfl⟩ | ⟨_, rfl, rfl⟩⟩
      · exact .inl hmet
      · exact .inl hmet
      · exact .inl hmet
      · cases List.mem_append.mp hmet with
        | inl hold => exact .inl hold
        | inr hnew =>
          rw [List.mem_singleton.mp hnew]
          exact .inr ⟨t, rfl, (hrest.passes_read List.mem_cons_self).cons _⟩
    · exact .inr ⟨s, hs, hpassed.cons _⟩

end Truth

/-!
## Projects
-/

/-- What the walk over a project says of a discovery. -/
structure Explorer.Foretells (x : Explorer) (moments : List Moment) (final : WalkState) :
    Prop where
  walk : x.Walk {} [.read x.entry] moments final
  only : ∀ moments' final', x.Walk {} [.read x.entry] moments' final' →
    moments' = moments ∧ final' = final
  /-- Every script that is reached is read, and every stop of it is passed. -/
  passed : ∀ p ∈ x.entry.path :: final.met, ∃ s, s.path = p ∧ x.Passed moments s
  succeeds : (∃ graph, x.graph = .ok graph) ↔ ∀ m ∈ moments, m.fault = none
  /-- A discovery that fails ends with the first fault of the walk. -/
  fails : ∀ e, x.graph = .error e ↔ moments.findSome? Moment.fault = some e
  /-- A fault is one of the entry or of a module that was met before. -/
  truthful : ∀ m ∈ moments, ∀ e, m.fault = some e →
    m.task.script.path ∈ x.entry.path :: m.state.met ∧ x.Fault m.state m.task.script e

/-- **A discovery fails exactly where there is a fault.**  The walk over a project comes to an
end, a discovery fails with the first fault that it finds, and every fault is a true one. -/
theorem graph_faults {x : Explorer} (hproper : x.files.HasProperPlace) :
    ∃ moments final, x.Foretells moments final := by
  have hsound : WalkState.Sound x {} := by
    constructor
    case known => simp [Known.IsSound]
    case files => simp
    case distinct => exact List.Pairwise.nil
  obtain ⟨moments, final, hwalk⟩ := walk_read hproper x.depth x.entry {} hsound (Nat.le_refl _)
  have hagrees := explore_agrees hproper x.depth x.entry
    { requires := (RequireGraph.addModule {} x.entry.path none).2 } hsound (Nat.le_refl _)
  -- A discovery of the whole project ends as the walk does.
  have hends : (∃ e, x.graph = .error e ∧ moments.findSome? Moment.fault = some e) ∨
      ∃ graph, x.graph = .ok graph ∧ moments.findSome? Moment.fault = none := by
    unfold Explorer.graph
    simp only [bind, Except.bind]
    cases hrun : x.explore x.depth x.entry
        { requires := (RequireGraph.addModule {} x.entry.path none).2 } with
    | error e =>
      rw [hrun] at hagrees
      exact .inl ⟨e, rfl, hagrees.fault e rfl [] moments final hwalk⟩
    | ok answer =>
      rw [hrun] at hagrees
      obtain ⟨front, back, rfl, hfront, hback⟩ :=
        hagrees.passed answer.2 rfl [] moments final hwalk
      cases hback
      rw [List.append_nil]
      exact .inr ⟨_, rfl, List.findSome?_eq_none_iff.mpr hfront⟩
  refine ⟨moments, final, ?_⟩
  constructor
  case walk => exact hwalk
  case only =>
    intro moments' final'
    exact hwalk.unique
  case passed =>
    intro p hp
    rcases List.mem_cons.mp hp with rfl | hp
    · exact ⟨x.entry, rfl, hwalk.passes_read List.mem_cons_self⟩
    · rcases hwalk.passes_met hp with hmet | hpassed
      · cases hmet
      · exact hpassed
  case succeeds =>
    rw [← List.findSome?_eq_none_iff]
    rcases hends with ⟨e, hgraph, hfirst⟩ | ⟨graph, hgraph, hfirst⟩ <;> simp [hgraph, hfirst]
  case fails =>
    intro e
    rcases hends with ⟨e', hgraph, hfirst⟩ | ⟨graph, hgraph, hfirst⟩ <;> simp [hgraph, hfirst]
  case truthful =>
    apply hwalk.faults
    intro task htask
    cases List.mem_singleton.mp htask
    constructor
    case reached => exact List.mem_cons_self
    case stop =>
      intro s stop heq
      cases heq

/-- A project with several faults.  The first that the walk comes to is in a script that is
read before the rest of the entry is passed. -/
def faultyProject : Explorer where
  files := {
    entries := [
      (["main.lua"], .file (Text.utf8 "require 'a' require('a', 1) require 'b'".toList)),
      (["a.lua"], .file (Text.utf8 "return __luapack_a, require 'main'".toList)),
      (["b.lua"], .file (Text.utf8 "return (".toList))] }
  resolver := { extension := "lua", entryDir := ⟨"/"⟩, dependencyRoots := [⟨"/node_modules"⟩] }
  entry := { path := ⟨"/main.lua"⟩, directory := ⟨"/"⟩ }

theorem faultyProject_faults :
    faultyProject.files.HasProperPlace ∧
      (match faultyProject.graph with
        | .ok _ => none
        | .error e => some e.message) = some
          "/a.lua: identifier '__luapack_a' uses the reserved `__luapack_` prefix" ∧
      ∃ moments final, faultyProject.Foretells moments final := by
  have hproper : faultyProject.files.HasProperPlace := FileSystem.hasProperPlace_of_root rfl
  constructor
  · exact hproper
  · constructor
    · decide +kernel
    · exact graph_faults hproper

end LuaBundle
