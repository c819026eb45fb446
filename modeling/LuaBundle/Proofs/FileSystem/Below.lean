import LuaBundle.Proofs.FileSystem.Moved

/-!
# Behind a directory

A path that comes to no link leads to the place that its segments spell, each `..` taking back
the name before it.  A relative path without `..` then leads below the place that it is read
from, and what never leads above that place leads to the same names below any other.  A file is
found only behind a last segment that is a name.
-/

namespace LuaBundle
namespace FileSystem

variable {fs : FileSystem}

/-!
## Spelled places
-/

/-- The place that segments spell from another, whatever is there. -/
def spelled : Place → List String → Place
  | place, [] => place
  | place, s :: rest =>
      if isStep s then spelled (if s = ".." then place.dropLast else place ++ [s]) rest
      else spelled place rest

theorem spelled_cons (place : Place) (s : String) (rest : List String) :
    spelled place (s :: rest) = spelled (spelled place [s]) rest := by
  cases hs : isStep s <;> simp [spelled, hs]

theorem spelled_filter (place : Place) (segments : List String) :
    spelled place (segments.filter isStep) = spelled place segments := by
  induction segments generalizing place with
  | nil => rfl
  | cons s rest ih =>
      cases hs : isStep s with
      | false => rw [List.filter_cons_of_neg (by simp [hs]), ih, spelled, hs,
          if_neg Bool.false_ne_true]
      | true => rw [List.filter_cons_of_pos hs, spelled_cons, ih, ← spelled_cons]

/-- Segments that never lead above a place spell the same names below any place. -/
theorem spelled_of_inside (place : Place) {names segments : List String}
    (h : Path.staysInside names.length segments = true) :
    spelled (place ++ names) segments = place ++ spelled names segments := by
  induction segments generalizing names with
  | nil => rfl
  | cons s rest ih =>
      unfold Path.staysInside at h
      unfold spelled
      split at h
      · rename_i hstep
        rw [if_pos hstep, if_pos hstep]
        split at h
        · rename_i hparent
          rw [Bool.and_eq_true, decide_eq_true_eq] at h
          have hne : names ≠ [] := List.ne_nil_of_length_pos h.1
          rw [if_pos hparent, if_pos hparent, List.dropLast_append_of_ne_nil hne]
          exact ih (by rw [List.length_dropLast]; exact h.2)
        · rename_i hparent
          rw [if_neg hparent, if_neg hparent, List.append_assoc]
          exact ih (by simpa using h)
      · rename_i hstep
        rw [if_neg hstep, if_neg hstep]
        exact ih h

theorem spelled_of_staysInside (place : Place) {segments : List String}
    (h : Path.staysInside 0 segments = true) :
    spelled place segments = place ++ spelled [] segments := by
  have hspelled := @spelled_of_inside place [] segments h
  rwa [List.append_nil] at hspelled

theorem spelled_of_proper {names : List String} (h : ∀ name ∈ names, IsProper name)
    (place : Place) : spelled place names = place ++ names := by
  induction names generalizing place with
  | nil => simp [spelled]
  | cons name rest ih =>
      rcases List.forall_mem_cons.mp h with ⟨⟨hempty, hpoint, hparent, _⟩, hrest⟩
      have hstep : isStep name = true := by simp [isStep, hempty, hpoint]
      rw [spelled, if_pos hstep, if_neg hparent, ih hrest, List.append_assoc, List.singleton_append]

/-- One segment spells different places from one place unless it is no name. -/
theorem eq_of_spelled {place : Place} {s s' : String} (h : spelled place [s] = spelled place [s']) :
    s = s' ∨ s ∈ ["", ".", ".."] ∧ s' ∈ ["", ".", ".."] := by
  have hcases : ∀ s, (s ∈ ["", ".", ".."] ∧ (spelled place [s]).length ≤ place.length) ∨
      spelled place [s] = place ++ [s] := by
    intro s
    cases hs : isStep s with
    | false =>
        rcases isStep_eq_false.mp hs with rfl | rfl <;> simp [spelled, hs]
    | true =>
        by_cases hparent : s = ".."
        · subst hparent
          simp [spelled, hs]
        · simp [spelled, hs, hparent]
  rcases hcases s with ⟨hspecial, hlength⟩ | hname
  all_goals rcases hcases s' with ⟨hspecial', hlength'⟩ | hname'
  · exact Or.inr ⟨hspecial, hspecial'⟩
  · rw [h, hname', List.length_append, List.length_singleton] at hlength
    omega
  · rw [← h, hname, List.length_append, List.length_singleton] at hlength'
    omega
  · rw [hname, hname'] at h
    exact Or.inl (List.singleton_inj.mp (List.append_cancel_left h))

/-!
## Links on the way
-/

/-- Whether there is a link among the places that segments spell one after another. -/
def meetsLink (fs : FileSystem) : Place → List String → Bool
  | _, [] => false
  | place, s :: rest =>
      (fs.link? (spelled place [s])).isSome || meetsLink fs (spelled place [s]) rest

theorem meetsLink_of_no_links (h : fs.links = []) (place : Place) (segments : List String) :
    fs.meetsLink place segments = false := by
  induction segments generalizing place with
  | nil => rfl
  | cons s rest ih =>
      rw [meetsLink, link_of_no_links h, ih]
      rfl

theorem spelled_name {s : String} (hblank : ¬(s = "" ∨ s = ".")) (hparent : s ≠ "..")
    (place : Place) : spelled place [s] = place ++ [s] := by
  have hstep : isStep s = true := by
    rw [← Bool.not_eq_false, isStep_eq_false]
    exact hblank
  rw [spelled, if_pos hstep, if_neg hparent, spelled]

theorem spelled_of_turn {creates : Bool} {place next : Place} {s : String}
    (h : fs.turn creates place s = .ok (.place next)) : next = spelled place [s] := by
  cases turns_of_turn h with
  | stay hblank => rw [spelled, isStep_eq_false.mpr hblank, if_neg Bool.false_ne_true, spelled]
  | up => rfl
  | down hblank hparent _ _ _ => rw [spelled_name hblank hparent]

theorem link_of_turn {creates : Bool} {place : Place} {s : String} {target : Path}
    (h : fs.turn creates place s = .ok (.link target)) :
    fs.link? (spelled place [s]) = some target := by
  cases turns_of_turn h with
  | link hblank hparent _ hlink => rwa [spelled_name hblank hparent]

/-- A way that comes to no link leads to the place that its segments spell. -/
theorem Way.spelled {creates : Bool} {a b : Standing} {segments : List String}
    (h : Way fs creates a segments b) (hfree : fs.meetsLink a.place segments = false) :
    b.place = FileSystem.spelled a.place segments := by
  induction h with
  | here => rfl
  | step hturn _ ih =>
      have hnext := spelled_of_turn hturn
      rw [meetsLink, Bool.or_eq_false_iff, ← hnext] at hfree
      rw [spelled_cons, ← hnext]
      exact ih hfree.2
  | jump hturn _ _ _ =>
      rw [meetsLink, link_of_turn hturn] at hfree
      cases hfree

/-- A relative path that is read from a real place leads to the place that it spells from there,
unless it comes to a link. -/
theorem place_of_join {names : List String} (hnames : ∀ name ∈ names, IsProper name)
    (hreal : fs.IsReal names) {rel : Path} (hrel : rel.isAbsolute = false) {place : Place}
    (h : fs.locate ((Path.ofNames names).join rel) = .ok place)
    (hfree : fs.meetsLink names rel.segments = false) : place = spelled names rel.segments := by
  rcases segments_join (Path.ofNames names) hrel with ⟨hroot, front, hsegments, hsteps⟩
  rcases way_of_lead h with ⟨_, links, hway⟩
  have hfollow := hway.follow
  have htail : rel.segments ≠ [] := by simp [segments_of_relative hrel, split_ne_nil]
  rw [start, startIn, hroot, isAbsolute_ofNames, if_pos rfl, hsegments, follow_steps htail front,
    hsteps, steps_ofNames hnames, follow_append] at hfollow
  cases hfront : fs.follow false ⟨[], maxLinks⟩ names with
  | error e =>
      rw [hfront] at hfollow
      cases hfollow
  | ok a =>
      have ha := (way_of_follow hfront).spelled_proper hnames hreal
      rw [hfront, ha] at hfollow
      exact (way_of_follow hfollow).spelled hfree

/-!
## Below a place
-/

theorem proper_steps {p : Path} (hparent : ".." ∉ p.segments) : ∀ s ∈ p.steps, IsProper s := by
  intro s hs
  rw [steps_eq] at hs
  rcases List.mem_filter.mp hs with ⟨hmem, hstep⟩
  refine ⟨?_, ?_, ?_, segments_no_slash p s hmem⟩
  · rintro rfl
    cases hstep
  · rintro rfl
    cases hstep
  · rintro rfl
    exact hparent hmem

/-- A relative path without `..` leads to a place below the one that it is read from, unless it
comes to a link. -/
theorem place_of_no_parent {names : List String} (hnames : ∀ name ∈ names, IsProper name)
    (hreal : fs.IsReal names) {rel : Path} (hrel : rel.isAbsolute = false)
    (hparent : ".." ∉ rel.segments) {place : Place}
    (h : fs.locate ((Path.ofNames names).join rel) = .ok place)
    (hfree : fs.meetsLink names rel.segments = false) : place = names ++ rel.steps := by
  rw [place_of_join hnames hreal hrel h hfree, ← spelled_filter, ← steps_eq]
  exact spelled_of_proper (proper_steps hparent) names

theorem isFile_of_not_step {p : Path} {front : List String} {s : String}
    (hsegments : p.segments = front ++ [s]) (hs : isStep s = false) : fs.isFile p = false := by
  rw [Bool.eq_false_iff]
  intro hfile
  rcases place_of_isFile hfile with ⟨place, content, hlocate, hentry, _⟩
  rcases way_of_lead hlocate with ⟨_, links, hway⟩
  have hfollow := hway.follow
  rw [hsegments, follow_append] at hfollow
  cases hfront : fs.follow false (fs.start p) front with
  | error e =>
      rw [hfront] at hfollow
      cases hfollow
  | ok above =>
      rw [hfront] at hfollow
      have hsame : ⟨place, links⟩ = above := follow_blank hs hfollow
      have hdirectory := follow_cons_ok hfollow
      rw [← hsame, hentry] at hdirectory
      cases hdirectory

end FileSystem
end LuaBundle
