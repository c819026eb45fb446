import LuaBundle.Proofs.Runtime.Once

/-!
# Runs come to an end

Calls of the loader are followed to some depth.  In a run in which no module is asked for while
its own function is running, as many functions run at a time as there are modules at most, so
such a run of a bundle is followed to its end.
-/

namespace LuaBundle
namespace Runtime

variable {α γ : Type}

/-- The function of a module started at a time and is running since. -/
structure RunsSince (log : Log α) (id i : Nat) : Prop where
  started : log.event i = some (.started id)
  running : ∀ k r, i < k → log.event k ≠ some (.ended id r)

variable [DecidableEq α] {s s' : State α γ} {id i : Nat}

theorem RunsSince.of_follows (h : RunsSince s.log id i) (follows : Follows s s')
    (noReentry : NoReentry s'.log) : RunsSince s'.log id i := by
  have lt := Log.lt_of_event h.started
  have started := Log.event_of_prefix follows.extends_log h.started
  constructor
  case started => exact started
  case running =>
    intro k
    -- An end that is new needs a new call, and that an earlier end.
    induction k using Nat.strongRecOn with
    | ind k ih =>
      intro r lt_k ended
      by_cases old : k < s.log.length
      · rw [Log.event_eq_of_prefix follows.extends_log old] at ended
        exact h.running k r lt_k ended
      · obtain ⟨j, le_j, j_lt, asked⟩ := follows.asked k id r (by omega) ended
        obtain ⟨k', r', lt_k', k'_lt, ended'⟩ := noReentry i j id (by omega) started asked
        exact ih k' (by omega) r' lt_k' ended'

theorem runsSince_start (s : State α γ) (id : Nat) :
    RunsSince (s.start id).log id (s.log.length + 1) := by
  have length : (s.start id).log.length = s.log.length + 2 := by simp [start_log]
  constructor
  case started =>
    rw [start_log, Log.event_two]
    exact .inr (.inr ⟨rfl, rfl⟩)
  case running =>
    intro k r lt ended
    have within := Log.lt_of_event ended
    omega

def AllRun (log : Log α) (stack : List Nat) : Prop :=
  ∀ id ∈ stack, ∃ i, RunsSince log id i

theorem AllRun.of_follows {stack : List Nat} (h : AllRun s.log stack) (follows : Follows s s')
    (noReentry : NoReentry s'.log) : AllRun s'.log stack := by
  intro id member
  obtain ⟨i, running⟩ := h id member
  exact ⟨i, running.of_follows follows noReentry⟩

theorem AllRun.start {stack : List Nat} (h : AllRun s.log stack)
    (noReentry : NoReentry (s.start id).log) (follows : Follows s (s.start id)) :
    id ∉ stack ∧ AllRun (s.start id).log (id :: stack) := by
  have asked : (s.start id).log.event s.log.length = some (.asked id) := by
    rw [start_log, Log.event_two]
    exact .inr (.inl ⟨rfl, rfl⟩)
  constructor
  · intro member
    obtain ⟨i, before⟩ := h id member
    have lt := Log.lt_of_event before.started
    have since := before.of_follows follows noReentry
    obtain ⟨k, r, lt_k, _, ended⟩ := noReentry i s.log.length id lt since.started asked
    exact since.running k r lt_k ended
  · intro other member
    cases member with
    | head => exact ⟨_, runsSince_start s id⟩
    | tail _ member => exact h.of_follows follows noReentry other member

section Depth

variable {factories : Factories α γ} {stack : List Nat}

theorem run_not_cut (stack : List Nat) {load : Nat → Run α γ (List (Value α))}
    (loads : ∀ id s, Keeps s (load id s).2)
    (ends : ∀ id s, AllRun s.log stack → NoReentry (load id s).2.log →
      (load id s).1 ≠ .error .cut)
    (action : Action α γ) (s : State α γ) (running : AllRun s.log stack)
    (noReentry : NoReentry (action.run load s).2.log) :
    (action.run load s).1 ≠ .error .cut := by
  induction action generalizing s with
  | finish globals vs =>
    intro h
    cases h
  | raise globals e =>
    intro h
    cases h
  | load globals id next ih =>
    have called := (loads id { s with globals }).follows
    have goesOn : Keeps (load id { s with globals }).2
        ((Action.load globals id next).run load s).2 := by
      rw [run_load]
      generalize load id { s with globals } = answer
      obtain ⟨outcome, s'⟩ := answer
      cases outcome with
      | ok vs => exact run_keeps loads _ s'
      | error stop =>
        cases stop with
        | raised e => exact run_keeps loads _ s'
        | cut => exact .globals s' s'.globals
        | foreign => exact .globals s' s'.globals
    have before := noReentry.of_prefix goesOn.follows.extends_log
    have answered := ends id { s with globals } running before
    have running' := running.of_follows (s := { s with globals }) called before
    rw [run_load] at noReentry ⊢
    generalize load id { s with globals } = answer at answered running' noReentry ⊢
    obtain ⟨outcome, s'⟩ := answer
    cases outcome with
    | ok vs => exact ih _ _ s' running' noReentry
    | error stop =>
      cases stop with
      | raised e => exact ih _ _ s' running' noReentry
      | cut => exact answered
      | foreign => simp [resume]

theorem load_not_cut {count : Nat} (bounded : ∀ id, count ≤ id → factories id = none)
    {depth : Nat} (distinct : stack.Nodup) (within : ∀ id ∈ stack, id < count)
    (deep : count < depth + stack.length) (id : Nat) (s : State α γ)
    (running : AllRun s.log stack) (noReentry : NoReentry (load factories depth id s).2.log) :
    (load factories depth id s).1 ≠ .error .cut := by
  induction depth generalizing stack id s with
  | zero =>
    have short : stack.length ≤ (List.range count).length := by
      apply distinct.length_le_of_subset
      intro id member
      exact List.mem_range.mpr (within id member)
    rw [List.length_range] at short
    omega
  | succ depth ih =>
    by_cases unknown : s.cache.get (.number id) = .nil
    · cases found : factories id with
      | none =>
        obtain ⟨e, h⟩ := load_missing factories depth unknown found
        rw [h]
        simp
      | some make =>
        have small : id < count := by
          apply Nat.lt_of_not_le
          intro large
          rw [bounded id large] at found
          cases found
        have started := Keeps.start unknown
        have keeps := run_keeps (load_keeps factories depth) (make s.globals) (s.start id)
        rw [load_unknown factories depth unknown found] at noReentry ⊢
        have inside :
            NoReentry ((make s.globals).run (load factories depth) (s.start id)).2.log := by
          generalize (make s.globals).run (load factories depth) (s.start id) = result
            at noReentry
          obtain ⟨outcome, s'⟩ := result
          cases outcome with
          | ok vs => exact noReentry.of_prefix ⟨_, (complete_log s' id vs).symm⟩
          | error stop =>
            cases stop with
            | raised e => exact noReentry.of_prefix ⟨_, (fail_log s' id e).symm⟩
            | cut => exact noReentry
            | foreign => exact noReentry
        obtain ⟨fresh, more⟩ :=
          running.start (inside.of_prefix keeps.follows.extends_log) started.follows
        have ran := run_not_cut (id :: stack) (load_keeps factories depth)
          (ih (List.nodup_cons.mpr ⟨fresh, distinct⟩)
            (List.forall_mem_cons.mpr ⟨small, within⟩) (by simp; omega))
          (make s.globals) (s.start id) more inside
        generalize (make s.globals).run (load factories depth) (s.start id) = result at ran ⊢
        obtain ⟨outcome, s'⟩ := result
        cases outcome with
        | ok vs => simp [settle]
        | error stop =>
          cases stop with
          | raised e => simp [settle]
          | cut => exact absurd rfl ran
          | foreign => simp [settle]
    · rw [load_known factories depth unknown]
      simp

/-- **Runs come to an end.**  A run of a bundle of so many modules is not cut off if it is
followed deeper than that and no module is asked for while its own function is running: the
program returns values or an error is raised to it. -/
theorem session_ends {count depth : Nat} (bounded : ∀ id, count ≤ id → factories id = none)
    (deep : count < depth) (main : Action α γ) (globals : γ)
    (noReentry : NoReentry (session factories depth main globals).2.log) :
    ∃ result : Result α, (session factories depth main globals).1 =
      match result with
      | .values vs => .ok vs
      | .raised e => .error (.raised e) := by
  have notCut : (session factories depth main globals).1 ≠ .error .cut := by
    apply run_not_cut [] (load_keeps factories depth) _ main { globals } _ noReentry
    · intro id s running inside
      exact load_not_cut bounded List.nodup_nil (by simp) (by simpa using deep) id s running inside
    · simp [AllRun]
  have notForeign : (session factories depth main globals).1 ≠ .error .foreign :=
    run_not_foreign (load_not_foreign factories depth) main { globals }
  generalize (session factories depth main globals).1 = outcome at notCut notForeign ⊢
  cases outcome with
  | ok vs => exact ⟨.values vs, rfl⟩
  | error stop =>
    cases stop with
    | raised e => exact ⟨.raised e, rfl⟩
    | cut => exact absurd rfl notCut
    | foreign => exact absurd rfl notForeign

end Depth

end Runtime
end LuaBundle
