import LuaBundle.Proofs.Runtime.Answers

/-!
# Modules are loaded once

Over every run of a bundle in which no module is asked for while its own function is running,
the function of a module comes to an end without an error at most once, everybody is given
what it returned then, and a module whose function raised an error has no result.
-/

namespace LuaBundle
namespace Runtime

variable {α γ : Type}

/-!
## Times

The time of an event is its place in the log.
-/

def Log.event (log : Log α) (i : Nat) : Option (Event α) :=
  log[i]?.map Prod.fst

def Log.table (log : Log α) (i : Nat) : Table α :=
  (log[i]?.map Prod.snd).getD []

theorem Log.event_append_left {log : Log α} {i : Nat} (h : i < log.length) (more : Log α) :
    Log.event (log ++ more) i = log.event i := by
  simp only [Log.event, List.getElem?_append_left h]

theorem Log.lt_of_event {log : Log α} {i : Nat} {e : Event α} (h : log.event i = some e) :
    i < log.length := by
  rw [Log.event, Option.map_eq_some_iff] at h
  obtain ⟨entry, found, _⟩ := h
  exact (List.getElem?_eq_some_iff.mp found).1

theorem Log.event_of_prefix {log log' : Log α} (h : log <+: log') {i : Nat} {e : Event α}
    (at_i : log.event i = some e) : log'.event i = some e := by
  obtain ⟨more, rfl⟩ := h
  rw [Log.event_append_left (Log.lt_of_event at_i)]
  exact at_i

theorem Log.event_eq_of_prefix {log log' : Log α} (h : log <+: log') {i : Nat}
    (lt : i < log.length) : log'.event i = log.event i := by
  obtain ⟨more, rfl⟩ := h
  exact Log.event_append_left lt more

theorem Log.table_eq_of_prefix {log log' : Log α} (h : log <+: log') {i : Nat}
    (lt : i < log.length) : log'.table i = log.table i := by
  obtain ⟨more, rfl⟩ := h
  simp only [Log.table, List.getElem?_append_left lt]

/-!
## The contract

A module is run when it is first asked for, and its result answers every call after that.
-/

/-- No module is asked for while its own function is running. -/
def NoReentry (log : Log α) : Prop :=
  ∀ i j id, i < j → log.event i = some (.started id) → log.event j = some (.asked id) →
    ∃ k r, i < k ∧ k < j ∧ log.event k = some (.ended id r)

def Event.starting : Event α → Option Nat
  | .started id => some id
  | _ => none

def Event.isEndOf (id : Nat) : Event α → Bool
  | .ended n _ => n == id
  | _ => false

theorem Event.starting_eq {e : Event α} {id : Nat} :
    e.starting = some id ↔ e = .started id := by
  cases e <;> simp [Event.starting]

theorem Event.isEndOf_eq {e : Event α} {id : Nat} :
    e.isEndOf id = true ↔ ∃ r, e = .ended id r := by
  cases e <;> simp [Event.isEndOf]

/-- No function that started before a time runs at that time if its module is asked for then. -/
def Log.IsFree (log : Log α) (j : Nat) : Prop :=
  ∀ i < j, ∀ id ∈ (log.event i).bind Event.starting, log.event j = some (.asked id) →
    ∃ k < j, i < k ∧ (log.event k).any (Event.isEndOf id) = true

theorem noReentry_iff {log : Log α} : NoReentry log ↔ ∀ j < log.length, log.IsFree j := by
  constructor
  · intro h j _ i lt id started asked
    obtain ⟨e, at_i, starting⟩ := Option.bind_eq_some_iff.mp started
    rw [Event.starting_eq.mp starting] at at_i
    obtain ⟨k, r, lt_k, k_lt, at_k⟩ := h i j id lt at_i asked
    refine ⟨k, k_lt, lt_k, ?_⟩
    rw [at_k]
    exact Event.isEndOf_eq.mpr ⟨r, rfl⟩
  · intro check i j id lt started asked
    obtain ⟨k, k_lt, lt_k, ends⟩ :=
      check j (Log.lt_of_event asked) i lt id (by rw [started]; rfl) asked
    rw [Option.any_eq_true] at ends
    obtain ⟨e, at_k, isEnd⟩ := ends
    obtain ⟨r, rfl⟩ := Event.isEndOf_eq.mp isEnd
    exact ⟨k, r, lt_k, k_lt, at_k⟩

instance [DecidableEq α] (log : Log α) (j : Nat) : Decidable (log.IsFree j) :=
  inferInstanceAs (Decidable (∀ i < j, ∀ id ∈ (log.event i).bind Event.starting,
    log.event j = some (.asked id) →
      ∃ k < j, i < k ∧ (log.event k).any (Event.isEndOf id) = true))

instance [DecidableEq α] (log : Log α) : Decidable (NoReentry log) :=
  decidable_of_iff _ noReentry_iff.symm

theorem NoReentry.of_prefix {log log' : Log α} (h : NoReentry log') (earlier : log <+: log') :
    NoReentry log := by
  intro i j id lt started asked
  obtain ⟨k, r, lt_k, k_lt, ended⟩ :=
    h i j id lt (Log.event_of_prefix earlier started) (Log.event_of_prefix earlier asked)
  have within := Log.lt_of_event asked
  rw [Log.event_eq_of_prefix earlier (by omega)] at ended
  exact ⟨k, r, lt_k, k_lt, ended⟩

variable [DecidableEq α]

/-- What a log says of a loader that loads each module once. -/
structure LoadsOnce (log : Log α) : Prop where
  /-- The function of a module comes to an end without an error at most once. -/
  once : ∀ i j id vs ws, log.event i = some (.ended id (.values vs)) →
    log.event j = some (.ended id (.values ws)) → i = j
  /-- The call under which it does so has it run and gives its value, or `true` for nil.  The
  module is not asked for in between. -/
  first : ∀ i id vs, log.event i = some (.ended id (.values vs)) →
    log.event (i + 1) = some (.answered id (.values [kept vs])) ∧
    ∃ j, j + 1 < i ∧ log.event j = some (.asked id) ∧ log.event (j + 1) = some (.started id) ∧
      ∀ k, j < k → k < i → log.event k ≠ some (.asked id)
  /-- Every later call is answered with the same value at once. -/
  later : ∀ i j id vs, i < j → log.event i = some (.ended id (.values vs)) →
    log.event j = some (.asked id) →
    log.event (j + 1) = some (.answered id (.values [kept vs]))
  /-- A call under which the function raises an error passes the error on, and there is no
  result then. -/
  failed : ∀ i id e, log.event i = some (.ended id (.raised e)) →
    log.event (i + 1) = some (.answered id (.raised e)) ∧
    (log.table (i + 1)).get (.number id) = .nil

/-!
## Stretches of a run
-/

/-- What any stretch of a run keeps: it adds to the log, a function ends in it only under a call
in it, and the result of a module stays what it is while the module is not asked for. -/
structure Follows (s s' : State α γ) : Prop where
  extends_log : s.log <+: s'.log
  asked : ∀ k id r, s.log.length ≤ k → s'.log.event k = some (.ended id r) →
    ∃ j, s.log.length ≤ j ∧ j < k ∧ s'.log.event j = some (.asked id)
  keeps : ∀ id, (∀ j, s.log.length ≤ j → s'.log.event j ≠ some (.asked id)) →
    s'.cache.get (.number id) = s.cache.get (.number id)

namespace Follows

variable {s s' s'' : State α γ}

theorem of_same (log : s'.log = s.log) (cache : s'.cache = s.cache) : Follows s s' := by
  constructor
  case extends_log => exact ⟨[], by simp [log]⟩
  case asked =>
    intro k id r le at_k
    rw [log] at at_k
    have lt := Log.lt_of_event at_k
    omega
  case keeps =>
    intro id _
    rw [cache]

theorem trans (first : Follows s s') (second : Follows s' s'') : Follows s s'' := by
  have grown := first.extends_log.length_le
  constructor
  case extends_log => exact first.extends_log.trans second.extends_log
  case asked =>
    intro k id r le at_k
    by_cases early : k < s'.log.length
    · rw [Log.event_eq_of_prefix second.extends_log early] at at_k
      obtain ⟨j, le_j, lt_j, at_j⟩ := first.asked k id r le at_k
      exact ⟨j, le_j, lt_j, Log.event_of_prefix second.extends_log at_j⟩
    · obtain ⟨j, le_j, lt_j, at_j⟩ := second.asked k id r (by omega) at_k
      exact ⟨j, by omega, lt_j, at_j⟩
  case keeps =>
    intro id none
    have later : s''.cache.get (.number id) = s'.cache.get (.number id) := by
      apply second.keeps
      intro j le_j
      exact none j (by omega)
    rw [later]
    apply first.keeps
    intro j le_j at_j
    exact none j le_j (Log.event_of_prefix second.extends_log at_j)

end Follows

/-!
## Two events at a time

A call that is answered at once and the end of a function put two events on record, and so
does the start of a function.
-/

/-- An event of a log to which two are added is an old one or one of the two. -/
theorem Log.event_two {log : Log α} {e₁ e₂ : Event α} {t₁ t₂ : Table α} {i : Nat}
    {e : Event α} :
    Log.event (log ++ [(e₁, t₁), (e₂, t₂)]) i = some e ↔
      log.event i = some e ∨ (i = log.length ∧ e₁ = e) ∨ (i = log.length + 1 ∧ e₂ = e) := by
  by_cases early : i < log.length
  · rw [Log.event_append_left early]
    constructor
    · intro h
      exact .inl h
    · rintro (h | ⟨rfl, _⟩ | ⟨rfl, _⟩)
      · exact h
      · omega
      · omega
  · have late : log.event i ≠ some e := fun h => early (Log.lt_of_event h)
    obtain ⟨d, rfl⟩ : ∃ d, i = log.length + d := ⟨i - log.length, by omega⟩
    simp only [late, false_or]
    match d with
    | 0 => simp [Log.event]
    | 1 => simp [Log.event]
    | d + 2 => simp [Log.event]

section Two

variable {s s' : State α γ} {e₁ e₂ : Event α} {t₁ t₂ : Table α}

theorem Follows.two (grown : s'.log = s.log ++ [(e₁, t₁), (e₂, t₂)])
    (quiet : ∀ id r, e₁ ≠ .ended id r) (answered : ∀ id r, e₂ ≠ .ended id r)
    (cache : s'.cache = s.cache) : Follows s s' := by
  constructor
  case extends_log => exact ⟨_, grown.symm⟩
  case asked =>
    intro k id r le at_k
    rw [grown, Log.event_two] at at_k
    rcases at_k with old | ⟨_, new⟩ | ⟨_, new⟩
    · have lt := Log.lt_of_event old
      omega
    · exact absurd new (quiet id r)
    · exact absurd new (answered id r)
  case keeps =>
    intro id _
    rw [cache]

end Two

/-!
## The invariant
-/

/-- What holds whenever no statement of the loader is half done. -/
structure Recorded (s : State α γ) : Prop extends LoadsOnce s.log where
  /-- A module whose function came to an end has a result. -/
  cached : ∀ i id vs, s.log.event i = some (.ended id (.values vs)) →
    s.cache.get (.number id) = kept vs

theorem Recorded.not_ended {s : State α γ} (h : Recorded s) {id : Nat}
    (unknown : s.cache.get (.number id) = .nil) (i : Nat) (vs : List (Value α)) :
    s.log.event i ≠ some (.ended id (.values vs)) := by
  intro ended
  have known := h.cached i id vs ended
  rw [unknown] at known
  exact kept_ne_nil vs known.symm

theorem Recorded.two {s s' : State α γ} {e₁ e₂ : Event α} {t₁ t₂ : Table α} (h : Recorded s)
    (grown : s'.log = s.log ++ [(e₁, t₁), (e₂, t₂)])
    (second : ∀ id, e₂ ≠ .asked id ∧ ∀ r, e₂ ≠ .ended id r)
    (asked : ∀ id i vs, e₁ = .asked id → s.log.event i = some (.ended id (.values vs)) →
      e₂ = .answered id (.values [kept vs]))
    (ended : ∀ id vs, e₁ = .ended id (.values vs) →
      (∀ i ws, s.log.event i ≠ some (.ended id (.values ws))) ∧
      e₂ = .answered id (.values [kept vs]) ∧
      ∃ j, j + 1 < s.log.length ∧ s.log.event j = some (.asked id) ∧
        s.log.event (j + 1) = some (.started id) ∧
        ∀ k, j < k → s.log.event k ≠ some (.asked id))
    (raised : ∀ id e, e₁ = .ended id (.raised e) →
      e₂ = .answered id (.raised e) ∧ t₂.get (.number id) = .nil)
    (cached : ∀ i id vs, s'.log.event i = some (.ended id (.values vs)) →
      s'.cache.get (.number id) = kept vs) : Recorded s' := by
  have earlier : s.log <+: s'.log := ⟨_, grown.symm⟩
  -- An end is an old one or the first of the two events.
  have ends : ∀ {i id r}, s'.log.event i = some (.ended id r) →
      s.log.event i = some (.ended id r) ∨ (i = s.log.length ∧ e₁ = .ended id r) := by
    intro i id r at_i
    rw [grown, Log.event_two] at at_i
    rcases at_i with old | new | ⟨_, new⟩
    · exact .inl old
    · exact .inr new
    · exact absurd new ((second id).2 r)
  have next : s'.log.event (s.log.length + 1) = some e₂ := by
    rw [grown, Log.event_two]
    exact .inr (.inr ⟨rfl, rfl⟩)
  have table : s'.log.table (s.log.length + 1) = t₂ := by
    simp [Log.table, grown]
  constructor
  case cached => exact cached
  constructor
  case once =>
    intro i j id vs ws at_i at_j
    rcases ends at_i with old_i | ⟨rfl, new_i⟩
    · rcases ends at_j with old_j | ⟨rfl, new_j⟩
      · exact h.once i j id vs ws old_i old_j
      · exact absurd old_i ((ended id ws new_j).1 i vs)
    · rcases ends at_j with old_j | ⟨rfl, new_j⟩
      · exact absurd old_j ((ended id vs new_i).1 j ws)
      · rfl
  case first =>
    intro i id vs at_i
    rcases ends at_i with old | ⟨rfl, new⟩
    · have lt := Log.lt_of_event old
      obtain ⟨answer, j, lt_j, asked_j, started_j, silent⟩ := h.first i id vs old
      constructor
      · exact Log.event_of_prefix earlier answer
      · refine ⟨j, lt_j, Log.event_of_prefix earlier asked_j,
          Log.event_of_prefix earlier started_j, ?_⟩
        intro k lt_k k_lt
        rw [Log.event_eq_of_prefix earlier (by omega)]
        exact silent k lt_k k_lt
    · obtain ⟨_, answer, j, lt_j, asked_j, started_j, silent⟩ := ended id vs new
      constructor
      · rw [next, answer]
      · refine ⟨j, lt_j, Log.event_of_prefix earlier asked_j,
          Log.event_of_prefix earlier started_j, ?_⟩
        intro k lt_k k_lt
        rw [Log.event_eq_of_prefix earlier k_lt]
        exact silent k lt_k
  case later =>
    intro i j id vs lt at_i at_j
    rw [grown, Log.event_two] at at_j
    rcases at_j with old_j | ⟨rfl, new_j⟩ | ⟨_, new_j⟩
    · have lt_j := Log.lt_of_event old_j
      rw [Log.event_eq_of_prefix earlier (by omega)] at at_i
      exact Log.event_of_prefix earlier (h.later i j id vs lt at_i old_j)
    · rw [Log.event_eq_of_prefix earlier lt] at at_i
      rw [next, asked id i vs new_j at_i]
    · exact absurd new_j (second id).1
  case failed =>
    intro i id e at_i
    rcases ends at_i with old | ⟨rfl, new⟩
    · obtain ⟨answer, empty⟩ := h.failed i id e old
      constructor
      · exact Log.event_of_prefix earlier answer
      · rw [Log.table_eq_of_prefix earlier (Log.lt_of_event answer)]
        exact empty
    · obtain ⟨answer, empty⟩ := raised id e new
      constructor
      · rw [next, answer]
      · rw [table]
        exact empty

/-!
## Calls
-/

section Calls

variable {s s' : State α γ} {id : Nat}

theorem complete_get_of_ne {other : Nat} (h : other ≠ id) (vs : List (Value α)) :
    (s.complete id vs).cache.get (.number other) = s.cache.get (.number other) := by
  apply get_store_of_ne (s.note _)
  simpa using h

theorem not_asked_while_running (running : Follows (s.start id) s')
    (noReentry : NoReentry s'.log) (j : Nat) (late : s.log.length + 1 < j) :
    s'.log.event j ≠ some (.asked id) := by
  have length : (s.start id).log.length = s.log.length + 2 := by simp [start_log]
  induction j using Nat.strongRecOn with
  | ind j ih =>
    intro asked
    have started : s'.log.event (s.log.length + 1) = some (.started id) := by
      apply Log.event_of_prefix running.extends_log
      rw [start_log, Log.event_two]
      exact .inr (.inr ⟨rfl, rfl⟩)
    -- A call would have to wait for an end of the function, and that for an earlier call.
    obtain ⟨k, r, lt_k, k_lt, ended⟩ := noReentry _ j id late started asked
    obtain ⟨i, le_i, lt_i, asked_i⟩ := running.asked k id r (by omega) ended
    exact ih i (by omega) (by omega) asked_i

theorem Follows.close (running : Follows (s.start id) s') {s'' : State α γ} {r : Result α}
    {answer : Event α} {t₁ t₂ : Table α}
    (grown : s''.log = s'.log ++ [(.ended id r, t₁), (answer, t₂)])
    (answered : ∀ other r, answer ≠ .ended other r)
    (cache : ∀ other, other ≠ id →
      s''.cache.get (.number other) = s'.cache.get (.number other)) :
    Follows s s'' := by
  have length : (s.start id).log.length = s.log.length + 2 := by simp [start_log]
  have started : s.log <+: (s.start id).log := ⟨_, (start_log s id).symm⟩
  have more : s'.log <+: s''.log := ⟨_, grown.symm⟩
  have longer := running.extends_log.length_le
  have asks : s''.log.event s.log.length = some (.asked id) := by
    apply Log.event_of_prefix more
    apply Log.event_of_prefix running.extends_log
    rw [start_log, Log.event_two]
    exact .inr (.inl ⟨rfl, rfl⟩)
  constructor
  case extends_log => exact (started.trans running.extends_log).trans more
  case asked =>
    intro k other r' le at_k
    rw [grown, Log.event_two] at at_k
    rcases at_k with old | ⟨rfl, new⟩ | ⟨_, new⟩
    · by_cases within : (s.start id).log.length ≤ k
      · obtain ⟨j, le_j, lt_j, at_j⟩ := running.asked k other r' within old
        exact ⟨j, by omega, lt_j, Log.event_of_prefix more at_j⟩
      · rw [Log.event_eq_of_prefix running.extends_log (by omega), start_log,
          Log.event_two] at old
        rcases old with before | ⟨_, new⟩ | ⟨_, new⟩
        · have lt := Log.lt_of_event before
          omega
        · cases new
        · cases new
    · cases new
      exact ⟨s.log.length, Nat.le_refl _, by omega, asks⟩
    · exact absurd new (answered other r')
  case keeps =>
    intro other none
    have differ : other ≠ id := by
      rintro rfl
      exact none s.log.length (Nat.le_refl _) asks
    rw [cache other differ]
    apply running.keeps
    intro j le_j at_j
    exact none j (by omega) (Log.event_of_prefix more at_j)

/-- What the function of a module may rely on and what it keeps. -/
structure Keeps (s s' : State α γ) : Prop where
  follows : Follows s s'
  recorded : NoReentry s'.log → Recorded s → Recorded s'

theorem Keeps.trans {s'' : State α γ} (first : Keeps s s') (second : Keeps s' s'') :
    Keeps s s'' := by
  constructor
  case follows => exact first.follows.trans second.follows
  case recorded =>
    intro noReentry h
    apply second.recorded noReentry
    exact first.recorded (noReentry.of_prefix second.follows.extends_log) h

theorem Keeps.globals (s : State α γ) (globals : γ) : Keeps s { s with globals } := by
  constructor
  case follows => exact .of_same rfl rfl
  case recorded =>
    intro _ h
    exact ⟨h.toLoadsOnce, h.cached⟩

end Calls

/-!
## Runs
-/

section Runs

variable {s s' : State α γ} {id : Nat}

/-- A call after which no function came to an end.  Where the module has a result, the call
is answered with it. -/
theorem Keeps.ask {answer : Event α}
    (grown : s'.log = s.log ++ [(.asked id, s.cache), (answer, s.cache)])
    (cache : s'.cache = s.cache)
    (plain : ∀ other, answer ≠ .asked other ∧ ∀ r, answer ≠ .ended other r)
    (known : s.cache.get (.number id) ≠ .nil →
      answer = .answered id (.values [s.cache.get (.number id)])) : Keeps s s' := by
  constructor
  case follows =>
    apply Follows.two grown
    · intro other r h
      cases h
    · intro other
      exact (plain other).2
    · exact cache
  case recorded =>
    intro _ h
    apply h.two grown plain
    case asked =>
      intro other i vs same ended
      cases same
      have value := h.cached i id vs ended
      rw [← value]
      apply known
      rw [value]
      exact kept_ne_nil vs
    case ended =>
      intro other vs same
      cases same
    case raised =>
      intro other e same
      cases same
    case cached =>
      intro i other vs ended
      rw [cache]
      rw [grown, Log.event_two] at ended
      rcases ended with old | ⟨_, new⟩ | ⟨_, new⟩
      · exact h.cached i other vs old
      · cases new
      · exact absurd new ((plain other).2 _)

theorem Keeps.recall (s : State α γ) (id : Nat) :
    Keeps s (s.recall id (s.cache.get (.number id))) := by
  apply Keeps.ask (recall_log s id _) rfl
  · intro other
    exact ⟨by simp, by simp⟩
  · intro _
    rfl

theorem Keeps.refuse (unknown : s.cache.get (.number id) = .nil) (e : Value α) :
    Keeps s (s.refuse id e) := by
  apply Keeps.ask (refuse_log s id e) rfl
  · intro other
    exact ⟨by simp, by simp⟩
  · intro known
    exact absurd unknown known

theorem Keeps.start (unknown : s.cache.get (.number id) = .nil) :
    Keeps s (s.start id) := by
  apply Keeps.ask (start_log s id) rfl
  · intro other
    exact ⟨by simp, by simp⟩
  · intro known
    exact absurd unknown known

/-- What is known when the function of a module is about to end, of the state `s` in which the
module was asked for and the state `s'` reached. -/
structure Running (s : State α γ) (id : Nat) (s' : State α γ) : Prop where
  recorded : Recorded s'
  unknown : s'.cache.get (.number id) = .nil
  within : s.log.length + 1 < s'.log.length
  asked : s'.log.event s.log.length = some (.asked id)
  started : s'.log.event (s.log.length + 1) = some (.started id)
  silent : ∀ k, s.log.length < k → s'.log.event k ≠ some (.asked id)

theorem Keeps.running (unknown : s.cache.get (.number id) = .nil)
    (ran : Keeps (s.start id) s') (noReentry : NoReentry s'.log) (h : Recorded s) :
    Running s id s' := by
  have grown := ran.follows.extends_log
  have length : (s.start id).log.length = s.log.length + 2 := by simp [start_log]
  have longer := grown.length_le
  have started : s'.log.event (s.log.length + 1) = some (.started id) := by
    apply Log.event_of_prefix grown
    rw [start_log, Log.event_two]
    exact .inr (.inr ⟨rfl, rfl⟩)
  have silent : ∀ k, s.log.length < k → s'.log.event k ≠ some (.asked id) := by
    intro k lt
    by_cases next : k = s.log.length + 1
    · rw [next, started]
      simp
    · exact not_asked_while_running ran.follows noReentry k (by omega)
  constructor
  case recorded =>
    apply ran.recorded noReentry
    exact (Keeps.start unknown).recorded (noReentry.of_prefix grown) h
  case unknown =>
    have same : s'.cache.get (.number id) = (s.start id).cache.get (.number id) := by
      apply ran.follows.keeps
      intro j le
      exact silent j (by omega)
    exact same.trans unknown
  case within => omega
  case asked =>
    apply Log.event_of_prefix grown
    rw [start_log, Log.event_two]
    exact .inr (.inl ⟨rfl, rfl⟩)
  case started => exact started
  case silent => exact silent

theorem Keeps.complete (unknown : s.cache.get (.number id) = .nil)
    (ran : Keeps (s.start id) s') (vs : List (Value α)) : Keeps s (s'.complete id vs) := by
  have grown := complete_log s' id vs
  constructor
  case follows =>
    apply ran.follows.close grown
    · intro other r
      simp
    · intro other differ
      exact complete_get_of_ne differ vs
  case recorded =>
    intro noReentry h
    have running := ran.running unknown (noReentry.of_prefix ⟨_, grown.symm⟩) h
    have none := running.recorded.not_ended running.unknown
    apply running.recorded.two grown
    case second =>
      intro other
      exact ⟨by simp, by simp⟩
    case asked =>
      intro other i ws same
      cases same
    case ended =>
      intro other ws same
      cases same
      exact ⟨none, rfl, s.log.length, running.within, running.asked, running.started,
        running.silent⟩
    case raised =>
      intro other e same
      cases same
    case cached =>
      intro i other ws ended
      rw [grown, Log.event_two] at ended
      rcases ended with old | ⟨_, new⟩ | ⟨_, new⟩
      · have differ : other ≠ id := by
          rintro rfl
          exact none i ws old
        rw [complete_get_of_ne differ]
        exact running.recorded.cached i other ws old
      · cases new
        exact get_store_self (s'.note _) _ _
      · cases new

theorem Keeps.fail (unknown : s.cache.get (.number id) = .nil)
    (ran : Keeps (s.start id) s') (e : Value α) : Keeps s (s'.fail id e) := by
  have grown := fail_log s' id e
  constructor
  case follows =>
    apply ran.follows.close grown
    · intro other r
      simp
    · intro other _
      rfl
  case recorded =>
    intro noReentry h
    have running := ran.running unknown (noReentry.of_prefix ⟨_, grown.symm⟩) h
    apply running.recorded.two grown
    case second =>
      intro other
      exact ⟨by simp, by simp⟩
    case asked =>
      intro other i ws same
      cases same
    case ended =>
      intro other ws same
      cases same
    case raised =>
      intro other e' same
      cases same
      exact ⟨rfl, running.unknown⟩
    case cached =>
      intro i other ws ended
      rw [grown, Log.event_two] at ended
      rcases ended with old | ⟨_, new⟩ | ⟨_, new⟩
      · exact running.recorded.cached i other ws old
      · cases new
      · cases new

variable (factories : Factories α γ)

theorem run_keeps {load : Nat → Run α γ (List (Value α))}
    (loads : ∀ id s, Keeps s (load id s).2) (action : Action α γ) (s : State α γ) :
    Keeps s (action.run load s).2 := by
  induction action generalizing s with
  | finish globals vs => exact .globals s globals
  | raise globals e => exact .globals s globals
  | load globals id next ih =>
    have called := (Keeps.globals s globals).trans (loads id { s with globals })
    rw [run_load]
    generalize load id { s with globals } = answer at called ⊢
    obtain ⟨outcome, s'⟩ := answer
    cases outcome with
    | ok vs => exact called.trans (ih _ _ s')
    | error stop =>
      cases stop with
      | raised e => exact called.trans (ih _ _ s')
      | cut => exact called
      | foreign => exact called

theorem load_keeps (depth id : Nat) (s : State α γ) :
    Keeps s (load factories depth id s).2 := by
  induction depth generalizing id s with
  | zero => exact .globals s s.globals
  | succ depth ih =>
    by_cases unknown : s.cache.get (.number id) = .nil
    · cases found : factories id with
      | none =>
        obtain ⟨e, h⟩ := load_missing factories depth unknown found
        rw [h]
        exact .refuse unknown e
      | some make =>
        have running := run_keeps ih (make s.globals) (s.start id)
        rw [load_unknown factories depth unknown found]
        generalize (make s.globals).run (load factories depth) (s.start id) = ran at running ⊢
        obtain ⟨outcome, s'⟩ := ran
        cases outcome with
        | ok vs => exact .complete unknown running vs
        | error stop =>
          cases stop with
          | raised e => exact .fail unknown running e
          | cut => exact (Keeps.start unknown).trans running
          | foreign => exact (Keeps.start unknown).trans running
    · rw [load_known factories depth unknown]
      exact .recall s id

/-!
The loader consists of nothing but what has a meaning.
-/

omit [DecidableEq α] in
theorem run_not_foreign {load : Nat → Run α γ (List (Value α))}
    (loads : ∀ id s, (load id s).1 ≠ .error .foreign) (action : Action α γ) (s : State α γ) :
    (action.run load s).1 ≠ .error .foreign := by
  induction action generalizing s with
  | finish globals vs =>
    intro h
    cases h
  | raise globals e =>
    intro h
    cases h
  | load globals id next ih =>
    have called := loads id { s with globals }
    rw [run_load]
    generalize load id { s with globals } = answer at called ⊢
    obtain ⟨outcome, s'⟩ := answer
    cases outcome with
    | ok vs => exact ih _ _ s'
    | error stop =>
      cases stop with
      | raised e => exact ih _ _ s'
      | cut => exact called
      | foreign => exact called

theorem load_not_foreign (depth id : Nat) (s : State α γ) :
    (load factories depth id s).1 ≠ .error .foreign := by
  induction depth generalizing id s with
  | zero =>
    intro h
    cases h
  | succ depth ih =>
    by_cases unknown : s.cache.get (.number id) = .nil
    · cases found : factories id with
      | none =>
        obtain ⟨e, h⟩ := load_missing factories depth unknown found
        rw [h]
        simp
      | some make =>
        have ran := run_not_foreign ih (make s.globals) (s.start id)
        rw [load_unknown factories depth unknown found]
        generalize (make s.globals).run (load factories depth) (s.start id) = result at ran ⊢
        obtain ⟨outcome, s'⟩ := result
        cases outcome with
        | ok vs => simp [settle]
        | error stop => cases stop <;> simp_all [settle]
    · rw [load_known factories depth unknown]
      simp

/-- **Modules are loaded once.**  Whatever the functions of the modules do, the statements of
the loader have a meaning throughout, and where no module is asked for while its own function
is running each is loaded once. -/
theorem session_loadsOnce (depth : Nat) (main : Action α γ) (globals : γ) :
    (session factories depth main globals).1 ≠ .error .foreign ∧
    (NoReentry (session factories depth main globals).2.log →
      LoadsOnce (session factories depth main globals).2.log) := by
  constructor
  · exact run_not_foreign (load_not_foreign factories depth) main { globals }
  · intro noReentry
    have empty : Recorded ({ globals } : State α γ) := by
      have none : ∀ i e, Log.event ({ globals } : State α γ).log i ≠ some e := by
        intro i e
        simp [Log.event]
      constructor
      case cached =>
        intro i id vs ended
        exact absurd ended (none _ _)
      constructor
      case once =>
        intro i j id vs ws ended
        exact absurd ended (none _ _)
      case first =>
        intro i id vs ended
        exact absurd ended (none _ _)
      case later =>
        intro i j id vs _ ended
        exact absurd ended (none _ _)
      case failed =>
        intro i id e ended
        exact absurd ended (none _ _)
    have kept := run_keeps (load_keeps factories depth) main { globals }
    exact (kept.recorded noReentry empty).toLoadsOnce

end Runs

/-!
## A run

Module 1 asks for module 2 and returns nothing; module 2 raises an error as long as the global
state is zero, and returns `false` later.  The program asks for both of them twice, and for a
module that does not exist.
-/

def lateFactories : Factories Empty Nat
  | 1 => some fun globals => .load (globals + 1) 2 fun globals _ => .finish globals []
  | 2 => some fun globals =>
      if globals = 0 then .raise globals (.text "too early")
      else .finish globals [.boolean false]
  | _ => none

def lateMain : Action Empty Nat :=
  .load 0 2 fun globals _ => .load globals 1 fun globals _ => .load globals 2 fun globals _ =>
    .load globals 1 fun globals _ => .load globals 3 fun globals _ => .finish globals []

theorem lateMain_loadsOnce :
    NoReentry (session lateFactories 3 lateMain 0).2.log ∧
    (session lateFactories 3 lateMain 0).2.log.map Prod.fst =
      [.asked 2, .started 2, .ended 2 (.raised (.text "too early")),
        .answered 2 (.raised (.text "too early")),
        .asked 1, .started 1,
        .asked 2, .started 2, .ended 2 (.values [.boolean false]),
        .answered 2 (.values [.boolean false]),
        .ended 1 (.values []), .answered 1 (.values [.boolean true]),
        .asked 2, .answered 2 (.values [.boolean false]),
        .asked 1, .answered 1 (.values [.boolean true]),
        .asked 3,
        .answered 3 (.raised (.text "attempt to call a value that is no function"))] ∧
    LoadsOnce (session lateFactories 3 lateMain 0).2.log := by
  have noReentry : NoReentry (session lateFactories 3 lateMain 0).2.log := by decide
  constructor
  · exact noReentry
  · constructor
    · decide
    · exact (session_loadsOnce lateFactories 3 lateMain 0).2 noReentry

end Runtime
end LuaBundle
