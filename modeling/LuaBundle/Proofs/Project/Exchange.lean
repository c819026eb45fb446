import LuaBundle.Proofs.FileSystem.Content
import LuaBundle.Proofs.Project.Scripts
import LuaBundle.Proofs.Project.Search

/-!
# Searches when a script has changed

No manifest can be read from a script.  A search therefore finds the same when a script is
given the contents of another one.
-/

namespace LuaBundle

open Lua Text

/-- Whether two searches find and learn the same, or both nothing. -/
structure Agrees (search search' : Search α) : Prop where
  same : ∀ known, (search known).1.toOption = (search' known).1.toOption ∧
    (search known).2 = (search' known).2

theorem agrees_refl (search : Search α) : Agrees search search where
  same _ := ⟨rfl, rfl⟩

theorem Agrees.bind {search search' : Search α} {next next' : α → Search β}
    (hsearch : Agrees search search') (hnext : ∀ a, Agrees (next a) (next' a)) :
    Agrees (search >>= next) (search' >>= next') := by
  constructor
  intro known
  have hfirst := hsearch.same known
  rw [search_bind, search_bind]
  generalize search known = run at hfirst
  generalize search' known = run' at hfirst
  rcases run with ⟨outcome, between⟩
  rcases run' with ⟨outcome', between'⟩
  rcases hfirst with ⟨houtcome, hbetween⟩
  change between = between' at hbetween
  subst hbetween
  cases outcome with
  | error e =>
      cases outcome' with
      | error e' => exact ⟨rfl, rfl⟩
      | ok a => cases houtcome
  | ok a =>
      cases outcome' with
      | error e' => cases houtcome
      | ok a' =>
          cases houtcome
          exact (hnext a).same between

/-!
## Manifests
-/

section Script

variable {fs : FileSystem} {place : Place} {content content' : Bytes} {chunk chunk' : Chunk}
  (hfile : fs.entry? place = some (.file content))
include hfile

theorem location_put (content' : Bytes) (p : Path) (package : Option Package) :
    Location.ofPath fs p package =
      Location.ofPath (fs.put place (.file content')) p package := by
  unfold Location.ofPath canonical
  rw [(FileSystem.sameShape_put hfile content').canonicalize]

theorem firstScript_put (content' : Bytes) (candidates : List (Path × Option Package)) :
    firstScript fs candidates = firstScript (fs.put place (.file content')) candidates := by
  unfold firstScript
  simp only [(FileSystem.sameShape_put hfile content').isFile]
  split
  · rfl
  · rw [location_put hfile content']

variable (hscript : parseBytes content = .ok chunk)
include hscript

theorem manifest_of_script (directory : Path)
    (hplace : fs.locate (directory.join manifestName) = .ok place) :
    (Manifest.read fs directory).toOption = none := by
  have hread : fs.readText (directory.join manifestName) = .ok (ofUtf8? content) := by
    rw [FileSystem.readText, FileSystem.read_of_place hfile hplace]
    rfl
  unfold Manifest.read
  simp only [hread]
  cases htext : ofUtf8? content with
  | none => rfl
  | some text =>
      simp only [ofText_of_script hscript htext]
      rfl

variable (hscript' : parseBytes content' = .ok chunk')
include hscript'

theorem manifest_put (directory : Path) :
    (Manifest.read fs directory).toOption =
      (Manifest.read (fs.put place (.file content')) directory).toOption := by
  by_cases hplace : fs.locate (directory.join manifestName) = .ok place
  · have hplace' : (fs.put place (.file content')).locate (directory.join manifestName) =
        .ok place := by
      rw [← (FileSystem.sameShape_put hfile content').locate]
      exact hplace
    rw [manifest_of_script hfile hscript directory hplace,
      manifest_of_script (FileSystem.entry_put_self hfile _) hscript' directory hplace']
  · have hread := @FileSystem.read_put_of_ne _ _ _ content' hfile _ hplace
    unfold Manifest.read FileSystem.readText
    simp only [hread]

theorem package_put (name : String) (directory : Path) :
    (Package.read fs name directory).toOption =
      (Package.read (fs.put place (.file content')) name directory).toOption := by
  have hshape := FileSystem.sameShape_put hfile content'
  have hmanifest := manifest_put hfile hscript hscript' directory
  have hisFile : (fs.put place (.file content')).isFile = fs.isFile := by
    funext p
    exact (hshape.isFile p).symm
  unfold Package.read
  simp only [bind, Except.bind, canonical, hisFile, ← hshape.canonicalize]
  generalize Manifest.read fs directory = found at hmanifest
  generalize Manifest.read (fs.put place (.file content')) directory = found' at hmanifest
  cases found with
  | error e =>
      cases found' with
      | error e' => rfl
      | ok manifest => cases hmanifest
  | ok manifest =>
      cases found' with
      | error e' => cases hmanifest
      | ok manifest' =>
          cases hmanifest
          rfl

/-!
## Searches
-/

theorem agrees_knownPackage (name : String) (directory : Path) :
    Agrees (knownPackage fs name directory)
      (knownPackage (fs.put place (.file content')) name directory) := by
  constructor
  intro known
  have hpackage := package_put hfile hscript hscript' name directory
  rw [knownPackage_eq, knownPackage_eq]
  cases known.lookup directory with
  | some package => exact ⟨rfl, rfl⟩
  | none =>
      generalize Package.read fs name directory = found at hpackage
      generalize Package.read (fs.put place (.file content')) name directory = found' at hpackage
      cases found with
      | error e =>
          cases found' with
          | error e' => exact ⟨rfl, rfl⟩
          | ok package => cases hpackage
      | ok package =>
          cases found' with
          | error e' => cases hpackage
          | ok package' =>
              cases hpackage
              exact ⟨rfl, rfl⟩

theorem agrees_firstPackage (name : String) (roots : List Path) :
    Agrees (firstPackage fs name roots)
      (firstPackage (fs.put place (.file content')) name roots) := by
  induction roots with
  | nil => exact agrees_refl _
  | cons root roots ih =>
      apply (agrees_knownPackage hfile hscript hscript' name _).bind
      intro package
      cases package with
      | some package => exact agrees_refl _
      | none => exact ih

/-- A search finds the same when a script is given the contents of another one. -/
theorem agrees_resolve (resolver : Resolver) (requester : Location) (module : String) :
    Agrees (resolver.resolve fs requester module)
      (resolver.resolve (fs.put place (.file content')) requester module) := by
  unfold Resolver.resolve
  rw [firstScript_put hfile content']
  apply (agrees_refl _).bind
  intro script
  cases script with
  | some script => exact agrees_refl _
  | none =>
      apply (agrees_firstPackage hfile hscript hscript' module _).bind
      intro package
      cases package with
      | none => exact agrees_refl _
      | some package =>
          change Agrees (do return some (← (Location.ofPath fs package.main (some package) :
            Except BundleError Location))) _
          rw [location_put hfile content']
          exact agrees_refl _

theorem sound_put_iff (known : Known) :
    known.IsSound fs ↔ known.IsSound (fs.put place (.file content')) := by
  have hpackage : ∀ name directory package,
      Package.read fs name directory = .ok package ↔
        Package.read (fs.put place (.file content')) name directory = .ok package := by
    intro name directory package
    have hpackage := package_put hfile hscript hscript' name directory
    generalize Package.read fs name directory = found at hpackage
    generalize Package.read (fs.put place (.file content')) name directory = found' at hpackage
    cases found <;> cases found' <;> simp_all [Except.toOption]
  simp only [Known.IsSound, hpackage]

end Script

end LuaBundle
