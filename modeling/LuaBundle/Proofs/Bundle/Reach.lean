import LuaBundle.Proofs.Bundle.Graph
import LuaBundle.Proofs.FileSystem.Places

/-!
# Reachable scripts

Where a call leads depends on the package that its script was reached in, and on what has
been learnt about directories.  A project is unambiguous when neither makes a difference.
A discovery of such a project then finds just the scripts that can be reached at all.
-/

namespace LuaBundle

open Lua

/-!
## What can be reached
-/

/-- A project whose entry and working directory are spelled as they are found. -/
structure Explorer.IsProject (x : Explorer) : Prop where
  here : x.files.HasProperPlace
  entry : x.entry.IsCanonical x.files

/-- The scripts that calls lead to from the entry, whatever has been learnt before. -/
inductive Explorer.Reachable (x : Explorer) : Location → Prop where
  | entry : x.Reachable x.entry
  | call {s t chunk name line known} (hs : x.Reachable s) (hparse : x.parse s = .ok chunk)
      (hcall : .call (.module name line) ∈ blockStops chunk.body)
      (hknown : Known.IsSound x.files known) (hleads : x.leadsTo known s name = some t) :
      x.Reachable t

/-- Whether two searches lead to the same script, or both to none. -/
def SameScript (t u : Option Location) : Prop :=
  t.map (·.path.components) = u.map (·.path.components)

/-- A project in which a call leads to the same script however its own script was reached and
whatever has been learnt before. -/
structure Explorer.Unambiguous (x : Explorer) : Prop where
  same : ∀ {s u chunk name line known known'}, x.Reachable s → x.Reachable u →
    (s.path == u.path) = true → x.parse s = .ok chunk →
    .call (.module name line) ∈ blockStops chunk.body →
    Known.IsSound x.files known → Known.IsSound x.files known' →
    SameScript (x.leadsTo known s name) (x.leadsTo known' u name)

/-- What a stop is like that a discovery passes, whatever has been learnt before. -/
def Explorer.Allows (x : Explorer) (s : Location) : WalkStop → Prop
  | .name n => ¬IsReserved n
  | .call (.unsupported _) => False
  | .call (.module name _) => ∀ known, Known.IsSound x.files known →
      ∃ t, x.leadsTo known s name = some t ∧ (t.path == x.entry.path) = false

/-- A script that can be parsed and all whose stops can be passed. -/
def Explorer.Healthy (x : Explorer) (s : Location) : Prop :=
  ∃ chunk, x.parse s = .ok chunk ∧ ∀ stop ∈ blockStops chunk.body, x.Allows s stop

section Reach

variable {x : Explorer} {s t u : Location} {known known' : Known} {name : String}

theorem SameScript.left {t : Option Location} (h : SameScript t (some u)) :
    ∃ v, t = some v ∧ (v.path == u.path) = true := by
  cases t with
  | none => cases h
  | some v => exact ⟨v, rfl, Path.beq_iff.mpr (Option.some.inj h)⟩

theorem SameScript.right {u : Option Location} (h : SameScript (some t) u) :
    ∃ v, u = some v ∧ (t.path == v.path) = true := by
  cases u with
  | none => cases h
  | some v => exact ⟨v, rfl, Path.beq_iff.mpr (Option.some.inj h)⟩

theorem found_of_leadsTo (h : x.leadsTo known s name = some t) : t.IsFound x.files := by
  have hgives := gives_found x.resolver x.files s name known
  unfold Explorer.leadsTo at h
  generalize x.resolver.resolve x.files s name known = run at h hgives
  rcases run with ⟨outcome, known'⟩
  cases outcome with
  | error e => cases h
  | ok answer =>
      change answer = some t at h
      exact hgives answer known' rfl t h

theorem canonical_of_leadsTo (h : x.leadsTo known s name = some t) :
    t.IsCanonical x.files :=
  (found_of_leadsTo h).canonical

theorem Explorer.Reachable.canonical (hproject : x.IsProject) (h : x.Reachable s) :
    s.IsCanonical x.files := by
  cases h with
  | entry => exact hproject.entry
  | call _ _ _ _ hleads => exact canonical_of_leadsTo hleads

theorem path_eq_of_same (hproject : x.IsProject) (hs : s.IsCanonical x.files)
    (ht : t.IsCanonical x.files) (h : (s.path == t.path) = true) : s.path = t.path := by
  rcases hs with ⟨p, hp⟩
  rcases ht with ⟨q, hq⟩
  rcases FileSystem.place_of_canonicalize hproject.here hp with ⟨place, hplace, hproper, _⟩
  rcases FileSystem.place_of_canonicalize hproject.here hq with ⟨place', hplace', hproper', _⟩
  rw [hplace, hplace'] at h
  rw [hplace, hplace', ofNames_injective hproper hproper' h]

theorem parse_congr (h : s.path = t.path) : x.parse s = x.parse t := by
  unfold Explorer.parse
  rw [h]

theorem sound_of_find {d d₁ : Discovery} (h : x.find s name d = .ok (t, d₁))
    (hsound : Known.IsSound x.files d.known) : Known.IsSound x.files d₁.known := by
  rcases resolve_of_find h with ⟨known, hrun, rfl⟩
  exact (learns_resolve x.resolver x.files s name).keeps hrun hsound

/-!
## What a run finds can be reached
-/

theorem Visits.reachable {stops : List WalkStop} {d d' : Discovery} {new : List Location}
    {answers : Answers} {chunk : Chunk} (h : Visits x s stops d new answers d')
    (hs : x.Reachable s) (hparse : x.parse s = .ok chunk)
    (hstops : ∀ stop ∈ stops, stop ∈ blockStops chunk.body)
    (hsound : Known.IsSound x.files d.known) :
    Known.IsSound x.files d'.known ∧ ∀ t ∈ new, x.Reachable t := by
  induction h generalizing chunk with
  | done s d => exact ⟨hsound, by simp⟩
  | name _ _ ih =>
      exact ih hs hparse (fun stop hstop => hstops stop (by simp [hstop])) hsound
  | again hfind _ _ _ ih =>
      have hsound₁ := sound_of_find hfind hsound
      exact ih hs hparse (fun stop hstop => hstops stop (by simp [hstop])) hsound₁
  | enter hfind _ _ hparse' _ _ _ ihinside ihrest =>
      have hsound₁ := sound_of_find hfind hsound
      have hleads := leadsTo_of_find hfind (Grown.refl _)
      have ht := hs.call hparse (hstops _ List.mem_cons_self) hsound₁ hleads
      rcases ihinside ht hparse' (fun _ hstop => hstop) hsound₁ with ⟨hsound₂, hinner⟩
      rcases ihrest hs hparse (fun stop hstop => hstops stop (by simp [hstop])) hsound₂ with
        ⟨hsound₃, hnew⟩
      refine ⟨hsound₃, ?_⟩
      intro u hu
      rw [List.cons_append] at hu
      rcases List.mem_cons.mp hu with rfl | hu
      · exact ht
      · rcases List.mem_append.mp hu with hu | hu
        · exact hinner u hu
        · exact hnew u hu

/-- The scripts that a discovery of an unambiguous project has found, against all those that
can be reached. -/
structure Finds (x : Explorer) (final : Discovery) (scripts : List Location) : Prop where
  reachable : ∀ s ∈ x.entry :: scripts, x.Reachable s
  explores : ∀ s ∈ x.entry :: scripts, x.Explores final s
  keys : final.table.map Prod.fst = scripts.map Location.path
  distinct : Distinct (x.entry :: scripts)
  sound : Known.IsSound x.files final.known

theorem finds_of_graph {graph : ModuleGraph} (h : x.graph = .ok graph) :
    ∃ scripts, Finds x graph.found scripts := by
  rcases graph_run h with
    ⟨start, scripts, answers, chunk, body, hknown, _, htable, _, _, hparse, hvisits, _, _⟩
  have hstart : Known.IsSound x.files start.known := by
    rw [hknown]
    simp [Known.IsSound]
  rcases hvisits.reachable .entry hparse (fun _ hstop => hstop) hstart with ⟨hsound, hreachable⟩
  refine ⟨scripts, ?_⟩
  constructor
  case reachable =>
    intro s hs
    rcases List.mem_cons.mp hs with rfl | hs
    · exact .entry
    · exact hreachable s hs
  case explores => exact explores_of_run hparse hvisits
  case keys => rw [table_of_run hvisits htable, numbered_fst]
  case distinct => exact distinct_of_preorder (preorder_of_run hparse hvisits htable)
  case sound => exact hsound

/-!
## What can be reached is found
-/

variable {final : Discovery} {scripts : List Location}

theorem Finds.covers (hproject : x.IsProject) (hclear : x.Unambiguous)
    (hfinds : Finds x final scripts) (h : x.Reachable s) :
    ∃ u ∈ x.entry :: scripts, s.path = u.path := by
  induction h with
  | entry => exact ⟨x.entry, by simp, rfl⟩
  | @call s t chunk name line known hs hparse hcall hknown hleads ih =>
      rcases ih with ⟨u, hu, hpath⟩
      have hsame := hclear.same hs (hfinds.reachable u hu) (by rw [hpath]; exact BEq.rfl) hparse
        hcall hknown hfinds.sound
      rcases hfinds.explores u hu with ⟨chunk', hparse', hpasses⟩
      rw [← parse_congr hpath, hparse, Except.ok.injEq] at hparse'
      subst hparse'
      rcases hpasses _ hcall with ⟨v, id, hleads', _, hlookup⟩
      rw [hleads] at hsame
      rcases hsame.right with ⟨w, hw, heq⟩
      rw [hleads', Option.some.injEq] at hw
      subst hw
      rcases mem_of_lookup hlookup with ⟨p, hp, hvp⟩
      have hmem : p ∈ scripts.map Location.path := by
        rw [← hfinds.keys]
        exact List.mem_map.mpr ⟨_, hp, rfl⟩
      rcases List.mem_map.mp hmem with ⟨m, hm, rfl⟩
      have hm' : m ∈ x.entry :: scripts := List.mem_cons_of_mem _ hm
      refine ⟨m, hm', ?_⟩
      have hcanonical := (hfinds.reachable m hm').canonical hproject
      exact path_eq_of_same hproject (canonical_of_leadsTo hleads) hcanonical
        (BEq.trans heq hvp)

theorem Finds.healthy (hproject : x.IsProject) (hclear : x.Unambiguous)
    (hfinds : Finds x final scripts) (h : x.Reachable s) : x.Healthy s := by
  rcases hfinds.covers hproject hclear h with ⟨u, hu, hpath⟩
  rcases hfinds.explores u hu with ⟨chunk, hparse, hpasses⟩
  rw [← parse_congr hpath] at hparse
  refine ⟨chunk, hparse, ?_⟩
  intro stop hstop
  have hpass := hpasses stop hstop
  cases stop with
  | name n => exact hpass
  | call call =>
      cases call with
      | unsupported line => exact hpass
      | module name line =>
          intro known hknown
          rcases hpass with ⟨t, id, hleads, hentry, _⟩
          have hsame := hclear.same h (hfinds.reachable u hu) (by rw [hpath]; exact BEq.rfl)
            hparse hstop hknown hfinds.sound
          rw [hleads] at hsame
          rcases hsame.left with ⟨v, hv, heq⟩
          refine ⟨v, hv, ?_⟩
          rw [BEq.congr_left heq]
          exact hentry

/-- The keys of the table are the paths of the scripts that can be reached, but for the
entry. -/
theorem Finds.keys_iff (hproject : x.IsProject) (hclear : x.Unambiguous)
    (hfinds : Finds x final scripts) (p : Path) :
    p ∈ final.table.map Prod.fst ↔ ∃ s, x.Reachable s ∧ s.path = p ∧ p ≠ x.entry.path := by
  rw [hfinds.keys]
  constructor
  · intro hp
    rcases List.mem_map.mp hp with ⟨s, hs, rfl⟩
    refine ⟨s, hfinds.reachable s (by simp [hs]), rfl, ?_⟩
    intro heq
    have hne := List.rel_of_pairwise_cons hfinds.distinct hs
    rw [heq, BEq.rfl] at hne
    cases hne
  · rintro ⟨s, hs, rfl, hne⟩
    rcases hfinds.covers hproject hclear hs with ⟨u, hu, hpath⟩
    rcases List.mem_cons.mp hu with rfl | hu
    · exact absurd hpath hne
    · rw [hpath]
      exact List.mem_map.mpr ⟨u, hu, rfl⟩

end Reach

end LuaBundle
