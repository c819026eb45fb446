import LuaBundle.Proofs.Project.Stateless

/-!
# What a resolver finds is a file

A script is found where a file is, and the main script of a package is one when the package is
looked up.  The path of a location is the canonical one of that file.
-/

namespace LuaBundle

open FileSystem

section Files

variable {fs : FileSystem} {known known' : Known}

theorem isPathOf_of_canonicalize (hfs : fs.HasProperPlace) {p path : Path}
    (h : fs.isFile p = true) (hpath : fs.canonicalize p = .ok path) :
    ∃ place, fs.IsPathOf path place := by
  obtain ⟨place, content, hlocate, hentry, hcanonical⟩ := place_of_isFile h
  rw [hcanonical] at hpath
  cases hpath
  obtain ⟨hproper, hreal⟩ := proper_of_locate hfs hlocate
  exact ⟨place, rfl, hproper, hreal, content, hentry⟩

/-- A canonical path leads to its own file under the same spelling, if it leads anywhere. -/
theorem FileSystem.IsPathOf.canonical {p path : Path} {place : Place} (h : fs.IsPathOf p place)
    (hpath : fs.canonicalize p = .ok path) : fs.IsPathOf path place := by
  rw [h.spelled, canonicalize] at hpath
  cases hlocate : fs.locate (.ofNames place) with
  | error e =>
    rw [hlocate] at hpath
    cases hpath
  | ok place' =>
    rw [hlocate, locate_ofNames h.proper h.real hlocate] at hpath
    cases hpath
    exact ⟨rfl, h.proper, h.real, h.file⟩

theorem main_isFile {name : String} {directory : Path} {package : Package}
    (h : Package.read fs name directory = .ok (some package)) :
    ∃ main, fs.isFile main = true ∧ fs.canonicalize main = .ok package.main := by
  obtain ⟨_, main, _, _, hfile, hcanonical, _⟩ := declared_of_package_read h
  exact ⟨main, hfile, hcanonical⟩

theorem firstPackage_isRead {name : String} {roots : List Path} {package : Package}
    (hsound : Known.IsSound fs known)
    (h : firstPackage fs name roots known = (.ok (some package), known')) :
    ∃ other directory, Package.read fs other directory = .ok (some package) := by
  induction roots generalizing known with
  | nil => cases h
  | cons root roots ih =>
    rw [firstPackage] at h
    obtain ⟨found, between, hfound, hrest⟩ := search_bind_ok h
    have hsound' := (learns_knownPackage fs name _).keeps hfound hsound
    cases found with
    | none => exact ih hsound' hrest
    | some package' =>
      cases hrest
      obtain ⟨spelled, hmem, _⟩ := mem_of_lookup (known_of_knownPackage hfound).1
      obtain ⟨other, hread⟩ := hsound' _ hmem
      exact ⟨other, spelled, hread⟩

theorem file_of_firstScript (hfs : fs.HasProperPlace)
    {candidates : List (Path × Option Package)} {script : Location}
    (h : firstScript fs candidates = .ok (some script)) :
    ∃ place, fs.IsPathOf script.path place := by
  unfold firstScript at h
  split at h
  · cases h
  · rename_i p package hfind
    have hfile : fs.isFile p = true := by simpa using List.find?_some hfind
    obtain ⟨place, _, _, _, hcanonical⟩ := place_of_isFile hfile
    rw [Location.ofPath, canonical, hcanonical] at h
    cases h
    exact isPathOf_of_canonicalize hfs hfile hcanonical

/-- Every script that a resolver finds is at the canonical path of a file. -/
theorem file_of_resolve (hfs : fs.HasProperPlace) (hsound : Known.IsSound fs known)
    {resolver : Resolver} {requester script : Location} {module : String}
    (h : resolver.resolve fs requester module known = (.ok (some script), known')) :
    ∃ place, fs.IsPathOf script.path place := by
  rw [Resolver.resolve] at h
  obtain ⟨found, between, hfound, hrest⟩ := search_bind_ok h
  have hlifted : firstScript fs (resolver.candidates requester module) = .ok found ∧
      between = known := by
    cases hfirst : firstScript fs (resolver.candidates requester module) with
    | error e =>
      rw [hfirst] at hfound
      cases hfound
    | ok answer =>
      rw [hfirst] at hfound
      cases hfound
      exact ⟨rfl, rfl⟩
  obtain ⟨hfirst, rfl⟩ := hlifted
  cases found with
  | some found =>
    cases hrest
    exact file_of_firstScript hfs hfirst
  | none =>
    obtain ⟨package, between', hpackage, hlast⟩ := search_bind_ok hrest
    cases package with
    | none => cases hlast
    | some package =>
      obtain ⟨other, directory, hread⟩ := firstPackage_isRead hsound hpackage
      obtain ⟨main, hfile, hmain⟩ := main_isFile hread
      obtain ⟨place, hplace⟩ := isPathOf_of_canonicalize hfs hfile hmain
      cases hcanonical : fs.canonicalize package.main with
      | error e =>
        simp only [Location.ofPath, canonical, hcanonical] at hlast
        cases hlast
      | ok path =>
        simp only [Location.ofPath, canonical, hcanonical] at hlast
        cases hlast
        exact ⟨place, hplace.canonical hcanonical⟩

end Files

end LuaBundle
