import LuaBundle.Proofs.FileSystem.Canonical
import LuaBundle.Proofs.FileSystem.Content

/-!
# Changes of a file system

Making directories leaves every file as it is, whether it succeeds or fails.  Writing a file
changes one place and no other, and what has been written is what the path leads to then.
-/

namespace LuaBundle

open Text

namespace FileSystem

/-- Whether two file systems have the same files, with the same contents, and the same links. -/
structure SameFiles (fs fs' : FileSystem) : Prop where
  links : fs'.links = fs.links
  files : ∀ place content,
    fs'.entry? place = some (.file content) ↔ fs.entry? place = some (.file content)

/-- Whether two file systems have the same links, and the same files but for one place. -/
structure SameFilesBut (fs fs' : FileSystem) (place : Place) : Prop where
  links : fs'.links = fs.links
  files : ∀ other, other ≠ place → ∀ content,
    fs'.entry? other = some (.file content) ↔ fs.entry? other = some (.file content)

theorem SameFiles.refl (fs : FileSystem) : SameFiles fs fs :=
  ⟨rfl, fun _ _ => .rfl⟩

theorem SameFiles.trans {fs fs' fs'' : FileSystem} (h : SameFiles fs fs')
    (h' : SameFiles fs' fs'') : SameFiles fs fs'' :=
  ⟨h'.links.trans h.links, fun place content =>
    (h'.files place content).trans (h.files place content)⟩

theorem SameFiles.trans_but {fs fs' fs'' : FileSystem} {place : Place} (h : SameFiles fs fs')
    (h' : SameFilesBut fs' fs'' place) : SameFilesBut fs fs'' place :=
  ⟨h'.links.trans h.links, fun other hother content =>
    (h'.files other hother content).trans (h.files other content)⟩

section Put

variable {fs : FileSystem} {place : Place}

theorem entry_put (hplace : place ≠ []) (entry : Entry) :
    FileSystem.entry? (fs.put place entry) place = some entry := by
  cases place with
  | nil => exact absurd rfl hplace
  | cons name rest => simp [put, entry?]

theorem sameFiles_put_directory (hplace : place ≠ []) (hnone : fs.entry? place = none) :
    SameFiles fs (fs.put place .directory) := by
  refine ⟨rfl, fun other content => ?_⟩
  by_cases hother : other = place
  · rw [hother, entry_put hplace, hnone]
    simp
  · rw [entry_put_of_ne _ hother]

end Put

/-!
## Making directories
-/

theorem makeDirectory_sameFiles {fs fs' : FileSystem} {p : Path}
    (h : fs.makeDirectory p = .ok fs') : SameFiles fs fs' := by
  simp only [makeDirectory, bind, Except.bind] at h
  split at h
  · cases h
  · rename_i found _
    obtain ⟨directory, name⟩ := found
    simp only at h
    split at h
    · cases h
    · split at h
      · cases h
      · split at h
        · cases h
        · rename_i hfree
          cases h
          apply sameFiles_put_directory
          · simp
          · simpa using hfree

theorem makeDirectoriesIn_sameFiles (fuel : Nat) (fs : FileSystem) (p : Path) :
    SameFiles fs (makeDirectoriesIn fuel fs p).1 := by
  induction fuel generalizing fs p with
  | zero => exact .refl fs
  | succ fuel ih =>
    rw [makeDirectoriesIn]
    split
    · exact .refl fs
    · cases hmake : fs.makeDirectory p with
      | ok fs' => exact makeDirectory_sameFiles hmake
      | error e =>
        cases e with
        | missing =>
          cases p.parent? with
          | none => exact .refl fs
          | some above =>
            have habove := ih fs above
            simp only
            generalize makeDirectoriesIn fuel fs above = made at habove ⊢
            obtain ⟨fs', trouble⟩ := made
            cases trouble with
            | none =>
              -- The directory itself is tried again below those that were made.
              apply habove.trans
              simp only
              cases hmake : fs'.makeDirectory p with
              | ok fs'' => exact makeDirectory_sameFiles hmake
              | error e => exact .refl fs'
            | some e => exact habove
        | _ => exact .refl fs

theorem makeDirectories_sameFiles (fs : FileSystem) (p : Path) :
    SameFiles fs (fs.makeDirectories p).1 :=
  makeDirectoriesIn_sameFiles _ fs p

/-!
## Writing a file
-/

/-- A segment that may make a new file leads there once the file is at its place, where no
directory was. -/
theorem turn_put {fs : FileSystem} {creates : Bool} {place here : Place} {s : String} {t : Turn}
    (hplace : fs.entry? place ≠ some .directory) (content : Bytes)
    (h : fs.turn creates here s = .ok t) (hmade : creates = true → ∀ next, t = .place next →
      next = place) :
    (fs.put place (.file content)).turn false here s = .ok t := by
  have hdirectory := turn_directory h
  have hhere : here ≠ place := by
    rintro rfl
    exact hplace hdirectory
  have hdirectory' : FileSystem.entry? (fs.put place (.file content)) here = some .directory := by
    rw [entry_put_of_ne _ hhere, hdirectory]
  apply turn_of_turns hdirectory'
  cases turns_of_turn h with
  | stay hblank => exact .stay hblank
  | up => exact .up
  | link hblank hparent hshort hlink => exact .link hblank hparent hshort hlink
  | down hblank hparent hshort hlink hthere =>
    refine .down hblank hparent hshort hlink ?_
    by_cases hnext : here ++ [s] = place
    · rw [← hnext, entry_put (by simp)]
      rfl
    · rw [entry_put_of_ne _ hnext]
      cases creates with
      | false => exact hthere
      | true => exact absurd (hmade rfl _ rfl) hnext

theorem follow_put {fs : FileSystem} {creates : Bool} {a b : Standing} {segments : List String}
    (hplace : fs.entry? b.place ≠ some .directory) (content : Bytes)
    (h : Way fs creates a segments b) :
    (fs.put b.place (.file content)).follow false a segments = .ok b := by
  induction h with
  | here => exact follow_nil _ false _
  | @step place next links s rest b hturn hmore ih =>
    have hturn' : (fs.put b.place (.file content)).turn false place s = .ok (.place next) := by
      apply turn_put hplace content hturn
      intro hlast next' hnext
      cases hnext
      -- Only the last segment may make something new.
      rw [Bool.and_eq_true, List.isEmpty_iff] at hlast
      rw [hlast.2] at hmore
      cases hmore
      rfl
    rw [follow_of_place hturn']
    exact ih hplace
  | @jump place links s rest target b hturn hspelling _ ih =>
    rw [follow_of_link (turn_put hplace content hturn nofun), hspelling]
    exact ih hplace

/-- What a written file is: the path leads to it, and nothing else is changed. -/
theorem write_spec {fs fs' : FileSystem} {p : Path} {content : Bytes}
    (h : fs.write p content = .ok fs') :
    ∃ place, fs'.locate p = .ok place ∧ fs'.entry? place = some (.file content) ∧
      SameFilesBut fs fs' place := by
  simp only [write, bind, Except.bind] at h
  cases hlead : fs.lead true p with
  | error e =>
    rw [hlead] at h
    cases h
  | ok place =>
    rw [hlead] at h
    simp only at h
    have hfile : fs.entry? place ≠ some .directory := by
      intro hthere
      rw [hthere] at h
      cases h
    have hput : fs.put place (.file content) = fs' := by
      split at h
      · cases h
      · cases h
        rfl
    have hroot : place ≠ [] := by
      rintro rfl
      exact hfile rfl
    subst hput
    obtain ⟨hspelling, links, hway⟩ := way_of_lead hlead
    refine ⟨place, ?_, entry_put hroot _, rfl, fun other hother content' => ?_⟩
    · exact (way_of_follow (follow_put hfile content hway)).lead hspelling
    · rw [entry_put_of_ne _ hother]

end FileSystem
end LuaBundle
