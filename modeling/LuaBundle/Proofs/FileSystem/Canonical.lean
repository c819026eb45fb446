import LuaBundle.Proofs.FileSystem.Spellings
import Mathlib.Tactic.SplitIfs

/-!
# Canonical paths

A place that a path leads to can be reached from the root by its own names.  The canonical
path of what a path leads to therefore leads there, too.
-/

namespace LuaBundle

open Text

namespace FileSystem

variable {fs : FileSystem}

def HasWorkingDirectory (fs : FileSystem) : Prop :=
  fs.locate fs.workingDirectory = .ok fs.here

/-- Whether a place can be reached from the root by its names without any link, and these can
stand in a path. -/
structure IsReached (fs : FileSystem) (place : Place) : Prop where
  proper : ∀ name ∈ place, IsProper name
  plain : ∀ name ∈ place, '\x00' ∉ name.toList
  real : fs.IsReal place
  reached : ∀ links, fs.follow false ⟨[], links⟩ place = .ok ⟨place, links⟩

/-!
## Following from reached places
-/

theorem isReached_root (fs : FileSystem) : fs.IsReached [] where
  proper := by simp
  plain := by simp
  real := isReal_root fs
  reached _ := follow_nil fs false _

theorem IsReached.above {place : Place} (h : fs.IsReached place) : fs.IsReached place.dropLast := by
  rcases List.eq_nil_or_concat place with rfl | ⟨front, last, hplace⟩
  · exact h
  · rw [List.concat_eq_append] at hplace
    subst hplace
    rw [List.dropLast_concat]
    have hproper : ∀ name ∈ front, IsProper name :=
      fun name hname => h.proper name (by simp [hname])
    have hreal : fs.IsReal front := h.real.of_prefix (List.prefix_append _ _)
    refine ⟨hproper, fun name hname => h.plain name (by simp [hname]), hreal, fun links => ?_⟩
    have hreached := h.reached links
    rw [follow_append] at hreached
    cases hfront : fs.follow false ⟨[], links⟩ front with
    | error e =>
        rw [hfront] at hreached
        cases hreached
    | ok b => rw [(way_of_follow hfront).spelled_proper hproper hreal, List.nil_append]

theorem IsReached.turn {place next : Place} (h : fs.IsReached place) {s : String}
    (hslash : '/' ∉ s.toList) (hplain : '\x00' ∉ s.toList)
    (hturn : fs.turn false place s = .ok (.place next)) : fs.IsReached next := by
  have hdirectory := turn_directory hturn
  have hproper := proper_of_turn h.proper hslash hturn
  have hreal := h.real.turn hturn
  cases turns_of_turn hturn with
  | stay _ => exact h
  | up => exact h.above
  | down _ _ _ _ _ =>
      refine ⟨hproper, ?_, hreal, fun links => ?_⟩
      · simpa [or_imp, forall_and] using ⟨h.plain, hplain⟩
      · rw [follow_append, h.reached]
        exact (follow_of_place hturn).trans (follow_nil fs false _)

theorem plain_of_checkSpelling {p : Path} (h : checkSpelling p = .ok ()) :
    '\x00' ∉ p.spelling.toList := by
  intro hmem
  unfold checkSpelling at h
  rw [if_pos (List.contains_iff_mem.mpr hmem)] at h
  cases h

theorem plain_segments {p : Path} (h : checkSpelling p = .ok ()) :
    ∀ s ∈ p.segments, '/' ∉ s.toList ∧ '\x00' ∉ s.toList :=
  fun s hs => ⟨segments_no_slash p s hs, fun hnul =>
    plain_of_checkSpelling h ((mem_segments (by decide)).mpr ⟨s, hs, hnul⟩)⟩

theorem IsReached.startIn {place : Place} (h : fs.IsReached place) (p : Path) :
    fs.IsReached (startIn place p) := by
  unfold FileSystem.startIn
  split
  · exact isReached_root fs
  · exact h

theorem Way.isReached {a b : Standing} {segments : List String} (h : Way fs false a segments b)
    (ha : fs.IsReached a.place)
    (hsegments : ∀ s ∈ segments, '/' ∉ s.toList ∧ '\x00' ∉ s.toList) : fs.IsReached b.place := by
  induction h with
  | here => exact ha
  | step hturn _ ih =>
      rw [List.forall_mem_cons] at hsegments
      exact ih (ha.turn hsegments.1.1 hsegments.1.2 hturn) hsegments.2
  | jump _ hspelling _ ih =>
      rw [List.forall_mem_cons] at hsegments
      exact ih (ha.startIn _)
        (List.forall_mem_append.mpr ⟨plain_segments hspelling, hsegments.2⟩)

/-!
## Paths of places
-/

theorem steps_ofNames {names : List String} (h : ∀ name ∈ names, IsProper name) :
    (Path.ofNames names).steps = names := by
  rw [Path.steps, components_ofNames h]
  change (names.map Path.Component.normal).filterMap Path.Component.step? = names
  rw [List.filterMap_map]
  exact List.filterMap_some

theorem plain_ofNames {names : List String} (h : ∀ name ∈ names, IsProper name) :
    '\x00' ∉ (Path.ofNames names).spelling.toList ↔ ∀ name ∈ names, '\x00' ∉ name.toList := by
  rw [mem_steps _ (by decide) (by decide), steps_ofNames h]
  simp

theorem isReached_here (hfs : fs.HasWorkingDirectory) : fs.IsReached fs.here := by
  rcases way_of_lead hfs with ⟨hspelling, links, hway⟩
  rw [workingDirectory, start_ofNames] at hway
  exact hway.isReached (isReached_root fs) (plain_segments hspelling)

theorem isReached_of_locate (hfs : fs.HasWorkingDirectory) {p : Path} {place : Place}
    (h : fs.locate p = .ok place) : fs.IsReached place := by
  rcases way_of_lead h with ⟨hspelling, links, hway⟩
  exact hway.isReached ((isReached_here hfs).startIn p) (plain_segments hspelling)

theorem locate_of_isReached {place : Place} (h : fs.IsReached place)
    (hshort : IsShort (Path.ofNames place)) : fs.locate (Path.ofNames place) = .ok place := by
  have hcheck : checkSpelling (Path.ofNames place) = .ok () := by
    have hplain := (plain_ofNames h.proper).mpr h.plain
    have hne : (Path.ofNames place).spelling ≠ "" := by
      rw [Ne, ← String.toList_eq_nil_iff, toList_ofNames]
      simp
    unfold checkSpelling
    rw [if_neg (by simpa using hplain), if_neg hne, if_neg (Nat.not_le.mpr hshort)]
  rw [locate, lead, hcheck, start_ofNames, follow_ofNames h.proper _ rfl, h.reached]
  rfl

theorem canonicalize_canonical (hfs : fs.HasWorkingDirectory) {p q : Path}
    (h : fs.canonicalize p = .ok q) (hshort : IsShort q) : fs.canonicalize q = .ok q := by
  rw [canonicalize] at h
  cases hlocate : fs.locate p with
  | error e =>
      rw [hlocate] at h
      cases h
  | ok place =>
      rw [hlocate] at h
      cases h
      rw [canonicalize, locate_of_isReached (isReached_of_locate hfs hlocate) hshort]
      rfl

end FileSystem

end LuaBundle
