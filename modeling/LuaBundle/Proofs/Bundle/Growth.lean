import LuaBundle.Proofs.Bundle.Visits

/-!
# What a run leaves behind

A run appends to what is known, to the table, to the scripts read, to the trees and to the
graph, and a later run takes nothing back.  Where a name leads to, and the number it has,
can therefore be told from the state at the end of a discovery.
-/

namespace LuaBundle

open Lua

/-!
## Where calls lead to

At the end of a discovery the answers to all calls are known, and with them the trees.
-/

/-- The script that a module name leads to when something is known about directories. -/
def Explorer.leadsTo (x : Explorer) (known : Known) (requester : Location) (name : String) :
    Option Location :=
  match (x.resolver.resolve x.files requester name known).1 with
  | .ok script => script
  | .error _ => none

def Explorer.called (x : Explorer) (final : Discovery) (s : Location) (stops : List WalkStop) :
    List Location :=
  stops.filterMap fun
    | .call (.module name _) => x.leadsTo final.known s name
    | _ => none

/-- The scripts that the calls in a script lead to. -/
def Explorer.next (x : Explorer) (final : Discovery) (s : Location) : List Location :=
  match x.parse s with
  | .ok chunk => x.called final s (blockStops chunk.body)
  | .error _ => []

def Explorer.numberOf (x : Explorer) (final : Discovery) (s : Location) (name : String) : Nat :=
  ((x.leadsTo final.known s name).bind fun t => final.table.lookup t.path).getD 0

/-- The tree of a script with the calls replaced by the numbers of the modules. -/
def Explorer.treeOf (x : Explorer) (final : Discovery) (s : Location) : Chunk :=
  match x.parse s with
  | .ok chunk => { chunk with body := rewriteBlock (x.numberOf final s) chunk.body }
  | .error _ => {}

def numbered (first : Nat) (scripts : List Location) : ModuleTable :=
  (scripts.zipIdx first).map fun (s, id) => (s.path, id)

theorem resolve_of_find {x : Explorer} {s t : Location} {name : String} {d d₁ : Discovery}
    (h : x.find s name d = .ok (t, d₁)) :
    ∃ known, x.resolver.resolve x.files s name d.known = (.ok (some t), known) ∧
      d₁ = { d with known } := by
  unfold Explorer.find at h
  generalize x.resolver.resolve x.files s name d.known = run at h
  rcases run with ⟨outcome, known⟩
  match outcome with
  | .error e => cases h
  | .ok none => cases h
  | .ok (some script) =>
      cases h
      exact ⟨known, rfl, rfl⟩

theorem find_ok {x : Explorer} {s t : Location} {name : String} {d d₁ : Discovery}
    (h : x.find s name d = .ok (t, d₁)) :
    ∃ known, d₁ = { d with known } ∧ d.known <+: known ∧
      (∀ whole, known <+: whole → x.leadsTo whole s name = some t) ∧
      t.IsCanonical x.files := by
  rcases resolve_of_find h with ⟨known, hrun, rfl⟩
  have hsettled := settled_resolve x.resolver x.files s name
  have hcanonical := gives_canonical x.resolver x.files s name _ _ _ hrun t rfl
  refine ⟨known, rfl, hsettled.grows hrun, fun whole hwhole => ?_, hcanonical⟩
  unfold Explorer.leadsTo
  rw [hsettled.stays hrun hwhole]

/-!
## Growth
-/

theorem numbered_append (first : Nat) (front back : List Location) :
    numbered first (front ++ back) =
      numbered first front ++ numbered (first + front.length) back := by
  simp [numbered, List.zipIdx_append]

theorem numbered_length (first : Nat) (scripts : List Location) :
    (numbered first scripts).length = scripts.length := by
  simp [numbered]

theorem Visits.grows {x : Explorer} {s : Location} {stops : List WalkStop} {d d' : Discovery}
    {new : List Location} {answers : Answers} (h : Visits x s stops d new answers d') :
    d.known <+: d'.known ∧ d'.table = d.table ++ numbered (d.table.length + 1) new ∧
      d'.parsed = d.parsed ++ new.map Location.path := by
  induction h with
  | done s d => simp [numbered]
  | name _ _ ih => exact ih
  | again hfind _ _ _ ih =>
      rcases find_ok hfind with ⟨known, rfl, hknown, _, _⟩
      rcases ih with ⟨hknown', htable, hparsed⟩
      exact ⟨hknown.trans hknown', htable, hparsed⟩
  | @enter s name line stops d t d₁ chunk body inner inside d₂ new answers d' hfind _ _ _ _ _ _
      ihinside ihrest =>
      rcases find_ok hfind with ⟨known, rfl, hknown, _, _⟩
      rcases ihinside with ⟨hknown₁, htable₁, hparsed₁⟩
      rcases ihrest with ⟨hknown₂, htable₂, hparsed₂⟩
      have htable : d₂.table = d.table ++ numbered (d.table.length + 1) (t :: inner) := by
        rw [htable₁]
        simp [Discovery.begin, Discovery.enter, Discovery.connect, Discovery.number, numbered]
      refine ⟨hknown.trans (hknown₁.trans hknown₂), ?_, ?_⟩
      · rw [htable₂]
        have hlength : d₂.table.length + 1 = d.table.length + 1 + (t :: inner).length := by
          rw [htable, List.length_append, numbered_length]
          omega
        change d₂.table ++ numbered (d₂.table.length + 1) new = _
        rw [hlength, htable, numbered_append, List.append_assoc]
      · rw [hparsed₂]
        simp [Discovery.store, hparsed₁, Discovery.begin, Discovery.enter,
          Discovery.connect, Discovery.number]

/-- Whether a state holds all that another one knows and has numbered. -/
structure Grown (d final : Discovery) : Prop where
  known : d.known <+: final.known
  table : d.table <+: final.table

theorem Grown.refl (d : Discovery) : Grown d d :=
  ⟨List.prefix_refl _, List.prefix_refl _⟩

theorem Grown.trans {d d' final : Discovery} (h : Grown d d') (h' : Grown d' final) :
    Grown d final :=
  ⟨h.known.trans h'.known, h.table.trans h'.table⟩

theorem Visits.grown {x : Explorer} {s : Location} {stops : List WalkStop} {d d' : Discovery}
    {new : List Location} {answers : Answers} (h : Visits x s stops d new answers d') :
    Grown d d' := by
  rcases h.grows with ⟨hknown, htable, _⟩
  refine ⟨hknown, ?_⟩
  rw [htable]
  exact List.prefix_append _ _

theorem Visits.grown_enter {x : Explorer} {s t : Location} {line : Nat}
    {stops : List WalkStop} {d₁ d₂ d' final : Discovery} {chunk tree : Chunk}
    {inner new : List Location} {inside answers : Answers} {id : Nat}
    (hinside : Visits x t (blockStops chunk.body) (d₁.begin s.path t.path line) inner inside d₂)
    (hrest : Visits x s stops (d₂.store id tree) new answers d') (hfinal : Grown d' final) :
    Grown d₂ final ∧ d₁.known <+: final.known ∧
      d₁.table ++ [(t.path, d₁.table.length + 1)] <+: final.table := by
  have hrun := hrest.grown.trans hfinal
  have hlast : Grown d₂ final := ⟨hrun.known, hrun.table⟩
  have hfirst := hinside.grown.trans hlast
  exact ⟨hlast, hfirst.known, hfirst.table⟩

end LuaBundle
