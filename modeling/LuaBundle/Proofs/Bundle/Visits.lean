import LuaBundle.Proofs.Bundle.Preorder
import LuaBundle.Proofs.Bundle.Stops

/-!
# Runs of a discovery

A successful discovery is a run over the stops of a script that nests a run over the stops
of every module it is the first to reach.  What such a run does to the state of the
discovery is read off it by induction.
-/

namespace LuaBundle

open Lua

/-!
## Steps

A discovery changes when a script has been read, when a new module gets its number, and when
its tree has been made.
-/

def Discovery.enter (d : Discovery) (p : Path) : Discovery :=
  { d with parsed := d.parsed ++ [p] }

def Discovery.begin (d : Discovery) (requester target : Path) (line : Nat) : Discovery :=
  ((d.number target).2.connect requester target line).enter target

def Discovery.store (d : Discovery) (id : Nat) (tree : Chunk) : Discovery :=
  { d with trees := d.trees.insert id tree }

def IsReserved (n : Name) : Prop :=
  reservedStart.toList.isPrefixOf n.text.toList = true

theorem discover_modify (f : Discovery → Discovery) (d : Discovery) :
    (modify f : Discover PUnit) d = .ok (⟨⟩, f d) :=
  rfl

theorem discover_modifyGet (f : Discovery → α × Discovery) (d : Discovery) :
    (modifyGet f : Discover α) d = .ok (f d) :=
  rfl

theorem require_eq (x : Explorer) (explore : Location → Discover Chunk) (s : Location)
    (name : String) (line : Nat) (d : Discovery) :
    x.require explore s name line d =
      match x.find s name d with
      | .error e => .error e
      | .ok (t, d₁) =>
          if t.path == x.entry.path then .error (.entryRequired s.path line name)
          else
            match d₁.table.lookup t.path with
            | some id => .ok (id, d₁.connect s.path t.path line)
            | none =>
                match explore t ((d₁.number t.path).2.connect s.path t.path line) with
                | .error e => .error e
                | .ok (tree, d₂) =>
                    .ok (d₁.table.length + 1, d₂.store (d₁.table.length + 1) tree) := by
  unfold Explorer.require
  simp only [bind, StateT.bind, Except.bind]
  cases x.find s name d with
  | error e => rfl
  | ok found =>
      rcases found with ⟨t, d₁⟩
      simp only
      split
      · rfl
      · change (match d₁.table.lookup t.path with
          | some id => (modify (Discovery.connect · s.path t.path line) >>= fun _ => pure id
              : Discover Nat)
          | none => _) d₁ = _
        cases d₁.table.lookup t.path with
        | some id => rfl
        | none =>
            cases hrun : explore t ((d₁.number t.path).2.connect s.path t.path line) <;>
              simp only [Discovery.number] at hrun <;>
              simp [bind, StateT.bind, Except.bind, discover_modify, discover_modifyGet,
                discover_pure, Discovery.number, Discovery.store, hrun]

theorem explore_eq (x : Explorer) (depth : Nat) (s : Location) (d : Discovery) :
    x.explore (depth + 1) s d =
      match x.parse s with
      | .error e => .error e
      | .ok chunk =>
          match walkBlock (x.visitor (x.explore depth) s) chunk.body (d.enter s.path) with
          | .error e => .error e
          | .ok (body, d') => .ok ({ chunk with body }, d') := by
  rw [Explorer.explore]
  cases x.parse s with
  | error e => rfl
  | ok chunk =>
      cases hrun : walkBlock (x.visitor (x.explore depth) s) chunk.body (d.enter s.path) <;>
        simp only [Discovery.enter] at hrun <;>
        simp [bind, StateT.bind, Except.bind, discover_modify, discover_pure, Discovery.enter,
          hrun]

/-!
## Runs
-/

/-- A run over stops of a script: the modules it is the first to reach, in order, and the
numbers it gives for names. -/
inductive Visits (x : Explorer) :
    Location → List WalkStop → Discovery → List Location → Answers → Discovery → Prop where
  | done (s d) : Visits x s [] d [] [] d
  | name {s n stops d new answers d'} (hname : ¬IsReserved n)
      (hrest : Visits x s stops d new answers d') :
      Visits x s (.name n :: stops) d new answers d'
  | again {s name line stops d t d₁ id new answers d'} (hfind : x.find s name d = .ok (t, d₁))
      (hentry : (t.path == x.entry.path) = false) (hknown : d₁.table.lookup t.path = some id)
      (hrest : Visits x s stops (d₁.connect s.path t.path line) new answers d') :
      Visits x s (.call (.module name line) :: stops) d new ((name, id) :: answers) d'
  | enter {s name line stops d t d₁ chunk body inner inside d₂ new answers d'}
      (hfind : x.find s name d = .ok (t, d₁)) (hentry : (t.path == x.entry.path) = false)
      (hnew : d₁.table.lookup t.path = none) (hparse : x.parse t = .ok chunk)
      (hinside : Visits x t (blockStops chunk.body) (d₁.begin s.path t.path line) inner inside d₂)
      (hbody : ∀ number, inside.Agree number → body = rewriteBlock number chunk.body)
      (hrest : Visits x s stops (d₂.store (d₁.table.length + 1) { chunk with body }) new
        answers d') :
      Visits x s (.call (.module name line) :: stops) d (t :: inner ++ new)
        ((name, d₁.table.length + 1) :: answers) d'

theorem passAll_cons_ok {x : Explorer} {explore : Location → Discover Chunk} {s : Location}
    {stop : WalkStop} {stops : List WalkStop} {d d' : Discovery} {answers : Answers}
    (h : x.passAll explore s (stop :: stops) d = .ok (answers, d')) :
    ∃ first d₁ more, x.pass explore s stop d = .ok (first, d₁) ∧
      x.passAll explore s stops d₁ = .ok (more, d') ∧ answers = first ++ more := by
  simp only [Explorer.passAll, bind, StateT.bind, Except.bind, discover_pure] at h
  cases hpass : x.pass explore s stop d with
  | error e => simp [hpass] at h
  | ok passed =>
      rcases passed with ⟨first, d₁⟩
      cases hmore : x.passAll explore s stops d₁ with
      | error e => simp [hpass, hmore] at h
      | ok passed =>
          rcases passed with ⟨more, d₂⟩
          simp only [hpass, hmore, Except.ok.injEq, Prod.mk.injEq] at h
          rcases h with ⟨rfl, rfl⟩
          exact ⟨first, d₁, more, rfl, hmore, rfl⟩

/-- A script that is explored is parsed, and its tree is the parsed one with the calls
replaced by the numbers of its run. -/
def Explored (x : Explorer) (s : Location) (d : Discovery) (tree : Chunk) (d' : Discovery) :
    Prop :=
  ∃ chunk new answers body, x.parse s = .ok chunk ∧
    Visits x s (blockStops chunk.body) (d.enter s.path) new answers d' ∧
    tree = { chunk with body } ∧
    ∀ number, answers.Agree number → body = rewriteBlock number chunk.body

theorem visits_of_passAll {x : Explorer} {explore : Location → Discover Chunk}
    (hexplore : ∀ t d tree d', explore t d = .ok (tree, d') → Explored x t d tree d')
    (s : Location) (stops : List WalkStop) (d d' : Discovery) (answers : Answers)
    (h : x.passAll explore s stops d = .ok (answers, d')) :
    ∃ new, Visits x s stops d new answers d' := by
  induction stops generalizing d answers with
  | nil =>
      simp only [Explorer.passAll] at h
      cases h
      exact ⟨[], .done s _⟩
  | cons stop stops ih =>
      rcases passAll_cons_ok h with ⟨first, d₁, more, hpass, hmore, rfl⟩
      rcases ih d₁ more hmore with ⟨new, hrest⟩
      cases stop with
      | name n =>
          by_cases hreserved : IsReserved n
          · simp only [Explorer.pass, if_pos (show _ = true from hreserved)] at hpass
            cases hpass
          · simp only [Explorer.pass, if_neg (show ¬_ = true from hreserved)] at hpass
            cases hpass
            exact ⟨new, .name hreserved hrest⟩
      | call call =>
          cases call with
          | unsupported line => cases hpass
          | module name line =>
              simp only [Explorer.pass, bind, StateT.bind, Except.bind, discover_pure] at hpass
              cases hrequire : x.require explore s name line d with
              | error e => simp [hrequire] at hpass
              | ok answer =>
                  rcases answer with ⟨id, d₂⟩
                  simp only [hrequire, Except.ok.injEq, Prod.mk.injEq] at hpass
                  rcases hpass with ⟨rfl, rfl⟩
                  rw [require_eq] at hrequire
                  cases hfind : x.find s name d with
                  | error e => simp [hfind] at hrequire
                  | ok found =>
                      rcases found with ⟨t, d₀⟩
                      simp only [hfind] at hrequire
                      cases hentry : t.path == x.entry.path with
                      | true => simp [hentry] at hrequire
                      | false =>
                          simp only [hentry, Bool.false_eq_true, if_false] at hrequire
                          cases hlookup : d₀.table.lookup t.path with
                          | some known =>
                              simp only [hlookup, Except.ok.injEq, Prod.mk.injEq] at hrequire
                              rcases hrequire with ⟨rfl, rfl⟩
                              exact ⟨new, .again hfind hentry hlookup hrest⟩
                          | none =>
                              simp only [hlookup] at hrequire
                              split at hrequire
                              · cases hrequire
                              · rename_i tree d₃ hrun
                                simp only [Except.ok.injEq, Prod.mk.injEq] at hrequire
                                rcases hrequire with ⟨rfl, rfl⟩
                                rcases hexplore t _ tree d₃ hrun with
                                  ⟨chunk, inner, inside, body, hparse, hinside, rfl, hbody⟩
                                exact ⟨_, .enter hfind hentry hlookup hparse hinside hbody
                                  hrest⟩

theorem explored_of_explore (x : Explorer) (depth : Nat) :
    ∀ t d tree d', x.explore depth t d = .ok (tree, d') → Explored x t d tree d' := by
  induction depth with
  | zero =>
      intro t d tree d' h
      cases h
  | succ depth ih =>
      intro t d tree d' h
      rw [explore_eq] at h
      cases hparse : x.parse t with
      | error e => simp [hparse] at h
      | ok chunk =>
          simp only [hparse] at h
          have hwalk := (block_follows x (x.explore depth) t chunk.body).run (d.enter t.path)
          cases hpass : x.passAll (x.explore depth) t (blockStops chunk.body)
              (d.enter t.path) with
          | error e =>
              rw [hpass] at hwalk
              simp only at hwalk
              simp [hwalk] at h
          | ok passed =>
              rcases passed with ⟨answers, d₁⟩
              rw [hpass] at hwalk
              rcases hwalk with ⟨body, hrun, hbody⟩
              simp only [hrun, Except.ok.injEq, Prod.mk.injEq] at h
              rcases h with ⟨rfl, rfl⟩
              rcases visits_of_passAll ih t _ _ _ _ hpass with ⟨new, hvisits⟩
              exact ⟨chunk, new, answers, body, hparse, hvisits, rfl, hbody⟩

end LuaBundle
