import LuaBundle.Proofs.FileSystem.Canonical
import Mathlib.Data.Option.Basic

/-!
# Searches that keep nothing

What is kept about directories does not change what a search answers: it is the answer of a
search that reads every manifest anew.  A directory may be known by another spelling, so
this takes paths that are short enough to be looked up however they are spelled.
-/

namespace LuaBundle

open FileSystem

/-!
## The search

A search without memory reads the manifests of packages each time that it is asked.
-/

def FileSystem.script? (fs : FileSystem) (p : Path) (package : Option Package) : Option Location :=
  if fs.isFile p then
    (fs.canonicalize p).toOption.map fun path => ⟨path, directoryOf path, package⟩
  else none

/-- The script with the name of a module: beside the requester, beside the entry, or in the
main directory of the package of the requester. -/
def Resolver.script? (resolver : Resolver) (fs : FileSystem) (requester : Location)
    (module : String) : Option Location :=
  let name := resolver.scriptName module
  (fs.script? (requester.directory.join name) requester.package).or
    ((fs.script? (resolver.entryDir.join name) none).or
      (requester.package.bind fun package => fs.script? (package.mainDir.join name) (some package)))

/-- The first package of a name among directories with packages, each of them read. -/
def readPackages (fs : FileSystem) (name : String) :
    List Path → Except BundleError (Option Package)
  | [] => .ok none
  | root :: roots => do
      match ← Package.read fs name (root.join ⟨relativeName name⟩) with
      | some package => return some package
      | none => readPackages fs name roots

/-- The script that a module name leads to, found without anything that is known. -/
def Resolver.search (resolver : Resolver) (fs : FileSystem) (requester : Location)
    (module : String) : Except BundleError (Option Location) :=
  match resolver.script? fs requester module with
  | some script => .ok (some script)
  | none =>
      (readPackages fs module resolver.dependencyRoots).map <| Option.map fun package =>
        ⟨package.main, package.mainDir, some package⟩

def Resolver.learnt (resolver : Resolver) (fs : FileSystem) (known : Known)
    (call : Location × String) : Known :=
  (resolver.resolve fs call.1 call.2 known).2

def Resolver.knownAfter (resolver : Resolver) (fs : FileSystem)
    (calls : List (Location × String)) : Known :=
  calls.foldl (resolver.learnt fs) []

/-- What identifies a package: its main script and the directory of that. -/
def Package.tag (package : Package) : Path × Path :=
  (package.main, package.mainDir)

def Location.shown (script : Location) : Path × Path × Option (Path × Path) :=
  (script.path, script.directory, script.package.map Package.tag)

/-- What an answer shows: an error, that there is no script, or where it is. -/
def shown (answer : Except BundleError (Option Location)) :
    Except BundleError (Option (Path × Path × Option (Path × Path))) :=
  answer.map (Option.map Location.shown)

/-- Whether what is looked up for the package of a directory is short enough: the manifest,
the script that it declares, and the canonical path of that. -/
def FileSystem.IsShortAt (fs : FileSystem) (directory : Path) : Prop :=
  IsShort (directory.join manifestName) ∧
    ∀ found ∈ (Manifest.read fs directory).toOption, ∀ manifest ∈ found, ∀ main ∈ manifest.main?,
      IsShort main ∧ ∀ path ∈ (fs.canonicalize main).toOption, IsShort path

def Resolver.IsShortFor (resolver : Resolver) (fs : FileSystem) (module : String) : Prop :=
  ∀ root ∈ resolver.dependencyRoots, fs.IsShortAt (root.join ⟨relativeName module⟩)

instance (p : Path) : Decidable (IsShort p) :=
  inferInstanceAs (Decidable (_ < _))

instance (fs : FileSystem) (directory : Path) : Decidable (fs.IsShortAt directory) :=
  inferInstanceAs (Decidable (_ ∧ _))

instance (resolver : Resolver) (fs : FileSystem) (module : String) :
    Decidable (resolver.IsShortFor fs module) :=
  inferInstanceAs (Decidable (∀ root ∈ resolver.dependencyRoots, _))

/-!
## Manifests of one directory
-/

section Directory

variable {fs : FileSystem} {d d' : Path}

theorem isFile_congr {p q : Path} (h : fs.locate p = fs.locate q) : fs.isFile p = fs.isFile q := by
  simp only [isFile, find?, h]

theorem readText_congr {p q : Path} (h : fs.locate p = fs.locate q) :
    fs.readText p = fs.readText q := by
  simp only [readText, FileSystem.read, h]

theorem canonicalize_congr {p q : Path} (h : fs.locate p = fs.locate q) :
    fs.canonicalize p = fs.canonicalize q := by
  simp only [canonicalize, h]

theorem ofText_directory (d d' : Path) (text : List Char) :
    Manifest.ofText? d' text =
      (Manifest.ofText? d text).map fun manifest => { manifest with directory := d' } := by
  simp only [Manifest.ofText?, Option.bind_eq_bind, Option.map_bind]
  refine Option.bind_congr fun value _ => ?_
  rw [Function.comp_apply, Option.map_bind]
  refine Option.bind_congr fun values _ => ?_
  rw [Function.comp_apply]
  split
  · simp [Option.map_bind]
  · rfl

theorem directory_of_ofText {text : List Char} {manifest : Manifest}
    (h : Manifest.ofText? d text = some manifest) : manifest.directory = d := by
  have hsame := ofText_directory d d text
  rw [h, Option.map_some, Option.some.injEq] at hsame
  rw [hsame]

/-- Where one spelling of a directory has a manifest, every other one has the same. -/
theorem manifest_read_congr (h : (d == d') = true) (hd : IsShort (d.join manifestName))
    (hd' : IsShort (d'.join manifestName)) {found : Option Manifest}
    (hread : Manifest.read fs d = .ok found) :
    (∀ manifest ∈ found, manifest.directory = d) ∧ Manifest.read fs d' =
      .ok (found.map fun manifest => { manifest with directory := d' }) := by
  have htext := readText_congr (locate_join_congr fs h manifestName hd hd')
  unfold Manifest.read at hread ⊢
  dsimp only at hread ⊢
  rw [← htext]
  cases hfile : fs.readText (d.join manifestName) with
  | error e =>
      rw [hfile] at hread
      cases e <;> cases hread
      exact ⟨by simp, rfl⟩
  | ok text =>
      rw [hfile] at hread
      cases text with
      | none => cases hread
      | some text =>
          have hother := ofText_directory d d' text
          cases hmanifest : Manifest.ofText? d text with
          | none => simp only [hmanifest, reduceCtorEq] at hread
          | some manifest =>
              simp only [hmanifest, Except.ok.injEq] at hread
              rw [hmanifest] at hother
              subst hread
              exact ⟨by simpa using directory_of_ofText hmanifest,
                  by simp only [hother, Option.map_some]⟩

theorem main_directory (manifest : Manifest) :
    manifest.main? = (manifest.build.bind BuildOptions.main).map manifest.directory.join := by
  rcases manifest with ⟨name, version, directory, _ | build⟩
  · rfl
  · cases hmain : build.main <;> simp [Manifest.main?, hmain]

theorem place_of_isFile {p : Path} (h : fs.isFile p = true) :
    ∃ place content, fs.locate p = .ok place ∧ fs.entry? place = some (.file content) ∧
      fs.canonicalize p = .ok (.ofNames place) := by
  unfold isFile find? at h
  cases hlocate : fs.locate p with
  | error e => simp [hlocate] at h
  | ok place =>
      cases hentry : fs.entry? place with
      | none => simp [hlocate, hentry] at h
      | some entry =>
          cases entry with
          | directory => simp [hlocate, hentry] at h
          | file content => exact ⟨place, content, rfl, hentry, by rw [canonicalize, hlocate]; rfl⟩

theorem package_read_of_manifest {name : String} {manifest : Manifest}
    (h : Manifest.read fs d = .ok (some manifest)) :
    Package.read fs name d = .ok ((manifest.main?.filter fs.isFile).bind fun main =>
      (fs.canonicalize main).toOption.map fun path =>
        ⟨name, manifest, path, directoryOf path⟩) := by
  rw [Package.read, h]
  cases hmain : manifest.main? with
  | none => simp [bind, Except.bind, hmain, pure, Except.pure]
  | some main =>
      cases hfile : fs.isFile main with
      | false =>
          have hnone : (some main).filter fs.isFile = none := by rw [Option.filter_some, hfile]; rfl
          rw [hnone]
          simp [bind, Except.bind, hmain, hnone, pure, Except.pure]
      | true =>
          have hsome : (some main).filter fs.isFile = some main := by
            rw [Option.filter_some, hfile]
            rfl
          rcases place_of_isFile hfile with ⟨place, _, _, _, hpath⟩
          have hcanonical : canonical fs main = .ok (Path.ofNames place) := by
            rw [canonical, hpath]
            rfl
          rw [hsome]
          simp [bind, Except.bind, hmain, hsome, pure, Except.pure, hcanonical, hpath,
            Except.toOption]

/-- A package that is read is declared by a manifest, whose main script is there. -/
theorem declared_of_package_read {name : String} {package : Package}
    (h : Package.read fs name d = .ok (some package)) :
    ∃ manifest main, Manifest.read fs d = .ok (some manifest) ∧ manifest.main? = some main ∧
      fs.isFile main = true ∧ fs.canonicalize main = .ok package.main ∧
      package.mainDir = directoryOf package.main := by
  cases hmanifest : Manifest.read fs d with
  | error e =>
      rw [Package.read, hmanifest] at h
      cases h
  | ok found =>
      cases found with
      | none =>
          rw [Package.read, hmanifest] at h
          cases h
      | some manifest =>
          rw [package_read_of_manifest hmanifest, Except.ok.injEq] at h
          rcases Option.bind_eq_some_iff.mp h with ⟨main, hmain, hpackage⟩
          rcases Option.filter_eq_some_iff.mp hmain with ⟨hdeclared, hfile⟩
          rcases Option.map_eq_some_iff.mp hpackage with ⟨path, hpath, rfl⟩
          rcases place_of_isFile hfile with ⟨place, _, _, _, hcanonical⟩
          rw [hcanonical, Except.toOption, Option.some.injEq] at hpath
          rw [hpath] at hcanonical
          exact ⟨manifest, main, rfl, hdeclared, hfile, hcanonical, rfl⟩

/-- What is read about a package is what its directory says under every spelling. -/
theorem package_read_congr (h : (d == d') = true) (hd : fs.IsShortAt d) (hd' : fs.IsShortAt d')
    {name : String} (name' : String) {found : Option Package}
    (hread : Package.read fs name d = .ok found) :
    ∃ found', Package.read fs name' d' = .ok found' ∧
      found'.map Package.tag = found.map Package.tag := by
  cases hmanifest : Manifest.read fs d with
  | error e =>
      rw [Package.read, hmanifest] at hread
      cases hread
  | ok manifest =>
      rcases manifest_read_congr h hd.1 hd'.1 hmanifest with ⟨hdirectory, hmanifest'⟩
      cases manifest with
      | none =>
          rw [Package.read, hmanifest] at hread
          cases hread
          exact ⟨none, by rw [Package.read, hmanifest']; rfl, rfl⟩
      | some manifest =>
          rw [package_read_of_manifest hmanifest] at hread
          cases hread
          refine ⟨_, package_read_of_manifest hmanifest', ?_⟩
          have hmain := main_directory manifest
          have hmain' := main_directory { manifest with directory := d' }
          have hshort := hd.2 _ (by rw [hmanifest]; rfl) manifest rfl
          have hshort' := hd'.2 _ (by rw [hmanifest']; rfl) _ rfl
          rw [hdirectory manifest rfl] at hmain
          cases hdeclared : manifest.build.bind BuildOptions.main with
          | none =>
              rw [hdeclared] at hmain hmain'
              rw [hmain, hmain']
              rfl
          | some p =>
              rw [hdeclared] at hmain hmain'
              have hlocate := locate_join_congr fs h p (hshort _ hmain).1 (hshort' _ hmain').1
              rw [hmain, hmain', Option.map_some, Option.map_some, Option.filter_some,
                Option.filter_some, isFile_congr hlocate]
              cases hfile : fs.isFile (d'.join p) with
              | false => rfl
              | true =>
                  rw [if_pos rfl, if_pos rfl, Option.bind_some, Option.bind_some,
                    canonicalize_congr hlocate]
                  cases fs.canonicalize (d'.join p) <;> rfl

end Directory

/-!
## What is known
-/

/-- Outcomes that look the same are the same error or values that look the same. -/
theorem cases_of_map {f : α → β} {first second : Except ε α} (h : first.map f = second.map f) :
    (∃ e, first = .error e ∧ second = .error e) ∨
      ∃ a b, first = .ok a ∧ second = .ok b ∧ f a = f b := by
  cases first with
  | error e =>
      cases second with
      | error e' =>
          cases h
          exact Or.inl ⟨e, rfl, rfl⟩
      | ok b => cases h
  | ok a =>
      cases second with
      | error e => cases h
      | ok b => exact Or.inr ⟨a, b, rfl, rfl, Except.ok.inj h⟩

theorem package_cases {found read : Option Package}
    (h : found.map Package.tag = read.map Package.tag) :
    found = none ∧ read = none ∨
      ∃ package package', found = some package ∧ read = some package' ∧
        package.tag = package'.tag := by
  cases read with
  | none => exact Or.inl ⟨Option.map_eq_none_iff.mp h, rfl⟩
  | some package' =>
      rcases Option.map_eq_some_iff.mp h with ⟨package, rfl, htag⟩
      exact Or.inr ⟨package, package', rfl, rfl, htag⟩

section Known

variable {fs : FileSystem} {known : Known}

/-- Whether what is known is what manifests say that are short enough to be looked up. -/
def Known.IsRead (fs : FileSystem) (known : Known) : Prop :=
  ∀ entry ∈ known, fs.IsShortAt entry.1 ∧ ∃ name, Package.read fs name entry.1 = .ok entry.2

/-- Looking up a package shows what its manifest says, and keeps no more than that. -/
theorem knownPackage_run (hknown : Known.IsRead fs known) (name : String) {directory : Path}
    (hshort : fs.IsShortAt directory) :
    (knownPackage fs name directory known).1.map (Option.map Package.tag) =
        (Package.read fs name directory).map (Option.map Package.tag) ∧
      Known.IsRead fs (knownPackage fs name directory known).2 := by
  rw [knownPackage_eq]
  cases hlookup : known.lookup directory with
  | some found =>
      rcases mem_of_lookup hlookup with ⟨spelled, hmem, hsame⟩
      rcases hknown _ hmem with ⟨hspelled, other, hread⟩
      rcases package_read_congr (BEq.symm hsame) hspelled hshort name hread with
        ⟨found', hread', htag⟩
      refine ⟨?_, hknown⟩
      rw [hread']
      exact congrArg Except.ok htag.symm
  | none =>
      cases hread : Package.read fs name directory with
      | error e => exact ⟨rfl, hknown⟩
      | ok found =>
          refine ⟨rfl, ?_⟩
          intro entry hentry
          rcases List.mem_append.mp hentry with hentry | hentry
          · exact hknown entry hentry
          · rw [List.mem_singleton.mp hentry]
            exact ⟨hshort, name, hread⟩

theorem firstPackage_run (name : String) {roots : List Path}
    (hshort : ∀ root ∈ roots, fs.IsShortAt (root.join ⟨relativeName name⟩))
    (hknown : Known.IsRead fs known) :
    (firstPackage fs name roots known).1.map (Option.map Package.tag) =
        (readPackages fs name roots).map (Option.map Package.tag) ∧
      Known.IsRead fs (firstPackage fs name roots known).2 := by
  induction roots generalizing known with
  | nil => exact ⟨rfl, hknown⟩
  | cons root roots ih =>
      rw [List.forall_mem_cons] at hshort
      rcases knownPackage_run hknown name hshort.1 with ⟨hfound, hmore⟩
      rw [firstPackage, search_bind, readPackages]
      rcases hrun : knownPackage fs name (root.join ⟨relativeName name⟩) known with ⟨outcome, more⟩
      rw [hrun] at hfound hmore
      rcases cases_of_map hfound with ⟨e, rfl, hread⟩ | ⟨found, read, rfl, hread, hsame⟩
      · rw [hread]
        exact ⟨rfl, hmore⟩
      · rw [hread]
        rcases package_cases hsame with ⟨rfl, rfl⟩ | ⟨package, package', rfl, rfl, htag⟩
        · exact ih hshort.2 hmore
        · exact ⟨congrArg (fun tag => Except.ok (some tag)) htag, hmore⟩

end Known

/-!
## Answers
-/

section Answers

variable {fs : FileSystem}

/-- Whether a path is the canonical one of a file at a place. -/
structure FileSystem.IsPathOf (fs : FileSystem) (p : Path) (place : Place) : Prop where
  spelled : p = .ofNames place
  proper : ∀ name ∈ place, IsProper name
  real : fs.IsReal place
  file : ∃ content, fs.entry? place = some (.file content)

theorem same_iff_place {p q : Path} {place place' : Place} (h : fs.IsPathOf p place)
    (h' : fs.IsPathOf q place') : (p == q) = true ↔ place = place' := by
  rw [h.spelled, h'.spelled]
  constructor
  · exact ofNames_injective h.proper h'.proper
  · rintro rfl
    exact BEq.rfl

theorem isPathOf_of_isFile (hfs : fs.HasWorkingDirectory) {p path : Path}
    (h : fs.isFile p = true) (hpath : fs.canonicalize p = .ok path) :
    ∃ place, fs.IsPathOf path place := by
  rcases place_of_isFile h with ⟨place, content, hlocate, hentry, hcanonical⟩
  rw [hcanonical] at hpath
  cases hpath
  have hreached := isReached_of_locate hfs hlocate
  exact ⟨place, rfl, hreached.proper, hreached.real, content, hentry⟩

/-- The main script of a package that is read is at its canonical path, which is short. -/
theorem main_of_read {name : String} {directory : Path} {package : Package}
    (hshort : fs.IsShortAt directory) (h : Package.read fs name directory = .ok (some package)) :
    ∃ main, fs.isFile main = true ∧ fs.canonicalize main = .ok package.main ∧
      IsShort package.main ∧ package.mainDir = directoryOf package.main := by
  rcases declared_of_package_read h with
    ⟨manifest, main, hmanifest, hdeclared, hfile, hcanonical, hdirectory⟩
  have hlength := hshort.2 _ (by rw [hmanifest]; rfl) manifest rfl main hdeclared
  have hpath : (fs.canonicalize main).toOption = some package.main := by
    rw [hcanonical]
    rfl
  exact ⟨main, hfile, hcanonical, hlength.2 _ hpath, hdirectory⟩

theorem package_of_readPackages {name : String} {roots : List Path} {package : Package}
    (h : readPackages fs name roots = .ok (some package)) :
    ∃ root ∈ roots, Package.read fs name (root.join ⟨relativeName name⟩) = .ok (some package) := by
  induction roots with
  | nil => cases h
  | cons root roots ih =>
      rw [readPackages] at h
      cases hread : Package.read fs name (root.join ⟨relativeName name⟩) with
      | error e =>
          rw [hread] at h
          cases h
      | ok found =>
          rw [hread] at h
          cases found with
          | some package' =>
              cases h
              exact ⟨root, List.mem_cons_self, hread⟩
          | none =>
              rcases ih h with ⟨root', hroot, hread⟩
              exact ⟨root', List.mem_cons_of_mem _ hroot, hread⟩

theorem script_of_not_isFile {p : Path} (h : fs.isFile p = false) (package : Option Package) :
    fs.script? p package = none := by
  rw [FileSystem.script?, h]
  rfl

theorem script_of_isFile {p : Path} (h : fs.isFile p = true) (package : Option Package) :
    ∃ script, Location.ofPath fs p package = .ok script ∧ fs.script? p package = some script := by
  rcases place_of_isFile h with ⟨place, _, _, _, hpath⟩
  refine ⟨⟨.ofNames place, directoryOf (.ofNames place), package⟩, ?_, ?_⟩
  · rw [Location.ofPath, canonical, hpath]
    rfl
  · rw [FileSystem.script?, if_pos h, hpath]
    rfl

theorem firstScript_eq (candidates : List (Path × Option Package)) :
    firstScript fs candidates = .ok (candidates.findSome? fun c => fs.script? c.1 c.2) := by
  induction candidates with
  | nil => rfl
  | cons candidate rest ih =>
      rcases candidate with ⟨p, package⟩
      rw [List.findSome?_cons]
      cases hfile : fs.isFile p with
      | false =>
          rw [script_of_not_isFile hfile, ← ih, firstScript, List.find?_cons, hfile]
          rfl
      | true =>
          rcases script_of_isFile hfile package with ⟨script, hpath, hscript⟩
          rw [hscript, firstScript, List.find?_cons, hfile]
          simp only [hpath]
          rfl

theorem candidates_eq (resolver : Resolver) (requester : Location) (module : String) :
    (resolver.candidates requester module).findSome? (fun c => fs.script? c.1 c.2) =
      resolver.script? fs requester module := by
  rw [Resolver.candidates, Resolver.script?]
  cases requester.package with
  | none =>
      simp only [Option.map_none, Option.toList_none, List.append_nil, Option.bind_none,
        List.findSome?_cons, List.findSome?_nil]
      cases fs.script? (requester.directory.join (resolver.scriptName module)) none <;>
        cases fs.script? (resolver.entryDir.join (resolver.scriptName module)) none <;> rfl
  | some package =>
      simp only [Option.map_some, Option.toList_some, List.cons_append, List.nil_append,
        Option.bind_some, List.findSome?_cons, List.findSome?_nil]
      cases fs.script? (requester.directory.join (resolver.scriptName module)) (some package) <;>
        cases fs.script? (resolver.entryDir.join (resolver.scriptName module)) none <;>
        cases fs.script? (package.mainDir.join (resolver.scriptName module)) (some package) <;> rfl

variable {known : Known} {resolver : Resolver}

theorem resolve_of_script (known : Known) (requester : Location) (module : String)
    {script : Location}
    (h : resolver.script? fs requester module = some script) :
    resolver.resolve fs requester module known = (.ok (some script), known) ∧
      resolver.search fs requester module = .ok (some script) := by
  constructor
  · rw [Resolver.resolve, firstScript_eq, candidates_eq, h]
    rfl
  · unfold Resolver.search
    rw [h]

theorem resolve_of_none (known : Known) (requester : Location) (module : String)
    (h : resolver.script? fs requester module = none) :
    resolver.resolve fs requester module known =
        (firstPackage fs module resolver.dependencyRoots >>= fun
          | none => return none
          | some package =>
              return some (← (Location.ofPath fs package.main (some package) :
                Except BundleError Location))) known ∧
      resolver.search fs requester module =
        (readPackages fs module resolver.dependencyRoots).map (Option.map fun package =>
          ⟨package.main, package.mainDir, some package⟩) := by
  constructor
  · rw [Resolver.resolve, firstScript_eq, candidates_eq, h]
    rfl
  · unfold Resolver.search
    rw [h]

/-- The location of a package that is known, if it is one that would be read. -/
theorem location_of_known (hfs : fs.HasWorkingDirectory) {module : String}
    (hshort : resolver.IsShortFor fs module) {known read : Package}
    (hread : readPackages fs module resolver.dependencyRoots = .ok (some read))
    (htag : known.tag = read.tag) :
    ∃ script, Location.ofPath fs known.main (some known) = .ok script ∧
      script.shown = Location.shown ⟨read.main, read.mainDir, some read⟩ := by
  rcases package_of_readPackages hread with ⟨root, hroot, hpackage⟩
  rcases main_of_read (hshort root hroot) hpackage with ⟨_, _, hcanonical, hlength, hdirectory⟩
  rcases Prod.mk.injEq .. ▸ htag with ⟨hmain, _⟩
  have hagain := canonicalize_canonical hfs hcanonical hlength
  refine ⟨⟨read.main, directoryOf read.main, some known⟩, ?_, ?_⟩
  · rw [hmain, Location.ofPath, canonical, hagain]
    rfl
  · rw [Location.shown, Location.shown, ← hdirectory, Option.map_some, Option.map_some, htag]

theorem run_ofPath {p : Path} {package : Option Package} {script : Location}
    (h : Location.ofPath fs p package = .ok script) (known : Known) :
    ((liftM (Location.ofPath fs p package) : Search Location) >>= fun script =>
      pure (some script)) known = (.ok (some script), known) := by
  rw [h]
  rfl

theorem resolve_run (hfs : fs.HasWorkingDirectory) (hknown : Known.IsRead fs known)
    (requester : Location) {module : String} (hshort : resolver.IsShortFor fs module) :
    shown (resolver.resolve fs requester module known).1 =
        shown (resolver.search fs requester module) ∧
      Known.IsRead fs (resolver.resolve fs requester module known).2 := by
  cases hscript : resolver.script? fs requester module with
  | some script =>
      rcases resolve_of_script known requester module hscript with ⟨hrun, hsearch⟩
      rw [hrun, hsearch]
      exact ⟨rfl, hknown⟩
  | none =>
      rcases resolve_of_none known requester module hscript with ⟨hrun, hsearch⟩
      rcases firstPackage_run module hshort hknown with ⟨hfound, hmore⟩
      rw [hrun, hsearch, search_bind]
      rcases hpackages : firstPackage fs module resolver.dependencyRoots known with ⟨outcome, more⟩
      rw [hpackages] at hfound hmore
      rcases cases_of_map hfound with ⟨e, rfl, hread⟩ | ⟨found, read, rfl, hread, hsame⟩
      · rw [hread]
        exact ⟨rfl, hmore⟩
      · rcases package_cases hsame with ⟨rfl, rfl⟩ | ⟨package, package', rfl, rfl, htag⟩
        · rw [hread]
          exact ⟨rfl, hmore⟩
        · rcases location_of_known hfs hshort hread htag with ⟨script, hpath, hshown⟩
          rw [hread]
          simp only [run_ofPath hpath]
          exact ⟨congrArg (fun place => Except.ok (some place)) hshown, hmore⟩

theorem place_of_search (hfs : fs.HasWorkingDirectory) {requester : Location} {module : String}
    (hshort : resolver.IsShortFor fs module) {script : Location}
    (h : resolver.search fs requester module = .ok (some script)) :
    ∃ place, fs.IsPathOf script.path place := by
  have hplace : ∀ p package, fs.script? p package = some script →
      ∃ place, fs.IsPathOf script.path place := by
    intro p package hscript
    cases hfile : fs.isFile p with
    | false =>
        rw [script_of_not_isFile hfile] at hscript
        cases hscript
    | true =>
        rcases place_of_isFile hfile with ⟨_, _, _, _, hcanonical⟩
        rw [FileSystem.script?, if_pos hfile, hcanonical] at hscript
        cases hscript
        exact isPathOf_of_isFile hfs hfile hcanonical
  unfold Resolver.search at h
  cases hscript : resolver.script? fs requester module with
  | some found =>
      rw [hscript] at h
      cases h
      rw [← candidates_eq] at hscript
      rcases List.exists_of_findSome?_eq_some hscript with ⟨candidate, _, hfound⟩
      exact hplace _ _ hfound
  | none =>
      rw [hscript] at h
      cases hread : readPackages fs module resolver.dependencyRoots with
      | error e =>
          rw [hread] at h
          cases h
      | ok found =>
          cases found with
          | none =>
              rw [hread] at h
              cases h
          | some package =>
              rw [hread] at h
              cases h
              rcases package_of_readPackages hread with ⟨root, hroot, hpackage⟩
              rcases main_of_read (hshort root hroot) hpackage with ⟨main, hfile, hcanonical, _⟩
              exact isPathOf_of_isFile hfs hfile hcanonical

end Answers

theorem learnt_isRead {fs : FileSystem} (hfs : fs.HasWorkingDirectory) {resolver : Resolver}
    {calls : List (Location × String)} (hcalls : ∀ call ∈ calls, resolver.IsShortFor fs call.2)
    {known : Known} (hknown : Known.IsRead fs known) :
    Known.IsRead fs (calls.foldl (resolver.learnt fs) known) := by
  induction calls generalizing known with
  | nil => exact hknown
  | cons call calls ih =>
      rw [List.forall_mem_cons] at hcalls
      rw [List.foldl_cons]
      exact ih hcalls.2 (resolve_run hfs hknown call.1 hcalls.1).2

/-- What a resolver has kept does not change what it answers, where nothing that is looked up
for a package is too long.  The answer is that of a fresh resolver and of a search that keeps
nothing, and where it is a script, its path is the canonical one of a file. -/
theorem resolve_stateless {fs : FileSystem} (hfs : fs.HasWorkingDirectory) {resolver : Resolver}
    {calls : List (Location × String)} {requester : Location} {module : String}
    (hcalls : ∀ call ∈ calls, resolver.IsShortFor fs call.2)
    (hshort : resolver.IsShortFor fs module) :
    let answer := (resolver.resolve fs requester module (resolver.knownAfter fs calls)).1
    shown answer = shown (resolver.resolve fs requester module []).1 ∧
      shown answer = shown (resolver.search fs requester module) ∧
      ∀ script, answer = .ok (some script) → ∃ place, fs.IsPathOf script.path place ∧
        ∀ other place', fs.IsPathOf other place' →
          ((script.path == other) = true ↔ place = place') := by
  intro answer
  have hnone : Known.IsRead fs [] := fun entry hentry => absurd hentry List.not_mem_nil
  have hsearch : shown answer = shown (resolver.search fs requester module) :=
    (resolve_run hfs (learnt_isRead hfs hcalls hnone) requester hshort).1
  have hfresh := (resolve_run hfs hnone requester hshort).1
  refine ⟨hsearch.trans hfresh.symm, hsearch, fun script hscript => ?_⟩
  rcases cases_of_map hsearch with ⟨e, herror, _⟩ | ⟨found, found', hfound, hfound', hshown⟩
  · rw [hscript] at herror
    cases herror
  · rw [hscript, Except.ok.injEq] at hfound
    subst hfound
    rcases Option.map_eq_some_iff.mp hshown.symm with ⟨script', rfl, hsame⟩
    rcases place_of_search hfs hshort hfound' with ⟨place, hplace⟩
    have hpath : script'.path = script.path := congrArg Prod.fst hsame
    rw [hpath] at hplace
    exact ⟨place, hplace, fun other place' hother => same_iff_place hplace hother⟩

/-!
## A package among directories
-/

/-- A package in a directory with another one above it, and a broken one. -/
def packedFiles : FileSystem where
  entries := [
    (["project"], .directory),
    (["project", "main.lua"], .file []),
    (["project", "lib"], .directory),
    (["project", "lib", "a"], .directory),
    (["project", "lib", "a", "b"], .directory),
    (["project", "lib", "a", "b", "package.json"],
      .file (Text.utf8 "\x7b\"luapack\": \x7b\"main\": \"m.lua\"\x7d\x7d".toList)),
    (["project", "lib", "a", "b", "m.lua"], .file []),
    (["project", "lib", "bad"], .directory),
    (["project", "lib", "bad", "package.json"], .file (Text.utf8 "\x7b".toList))]
  here := ["project"]

def packedResolver : Resolver where
  extension := "lua"
  entryDir := ⟨"/project"⟩
  dependencyRoots := [⟨"/project/lib"⟩]

def packedEntry : Location where
  path := ⟨"/project/main.lua"⟩
  directory := ⟨"/project"⟩

theorem packedFiles_stateless :
    let calls := [(packedEntry, "a.b"), (packedEntry, "bad"), (packedEntry, "none")]
    let answer := (packedResolver.resolve packedFiles packedEntry "a..b"
      (packedResolver.knownAfter packedFiles calls)).1
    shown answer = shown (packedResolver.resolve packedFiles packedEntry "a..b" []).1 ∧
      shown answer = shown (packedResolver.search packedFiles packedEntry "a..b") ∧
      ∀ script, answer = .ok (some script) → ∃ place, packedFiles.IsPathOf script.path place ∧
        ∀ other place', packedFiles.IsPathOf other place' →
          ((script.path == other) = true ↔ place = place') := by
  have hfs : packedFiles.HasWorkingDirectory := by
    have hlocate : (packedFiles.locate packedFiles.workingDirectory).toOption =
        some packedFiles.here := by decide +kernel
    unfold HasWorkingDirectory
    cases h : packedFiles.locate packedFiles.workingDirectory with
    | error e =>
        rw [h] at hlocate
        cases hlocate
    | ok place =>
        rw [h] at hlocate
        exact congrArg Except.ok (Option.some.inj hlocate)
  exact resolve_stateless hfs (by decide +kernel) (by decide +kernel)

/-!
## Paths that are too long
-/

section Long

variable {fs : FileSystem} {d p : Path}

theorem length_le_size (text : List Char) : text.length ≤ (String.ofList text).utf8ByteSize := by
  induction text with
  | nil => simp
  | cons c rest ih =>
      have hpositive := Char.utf8Size_pos c
      rw [String.ofList_cons, String.utf8ByteSize_append, String.utf8ByteSize_singleton,
        List.length_cons]
      omega

theorem size_le_join (h : p.isAbsolute = false) :
    d.spelling.utf8ByteSize ≤ (d.join p).spelling.utf8ByteSize ∧
      p.spelling.utf8ByteSize ≤ (d.join p).spelling.utf8ByteSize := by
  rw [Path.join, h, if_neg Bool.false_ne_true]
  split
  · rename_i hnone
    rw [List.getLast?_eq_none_iff, String.toList_eq_nil_iff] at hnone
    simp [hnone]
  · simp
  · simp only [String.utf8ByteSize_append]
    omega

theorem locate_of_long (fs : FileSystem) (h : ¬IsShort p) :
    ∃ e, fs.locate p = .error e ∧ e ≠ .missing := by
  have hcheck : checkSpelling p = .error .badName := by
    unfold checkSpelling
    split
    · rfl
    · split
      · rename_i hempty
        rw [IsShort, hempty] at h
        exact absurd (by decide) h
      · exact if_pos (Nat.not_lt.mp h)
  exact ⟨.badName, by rw [locate, lead, hcheck]; rfl, by decide⟩

theorem isFile_of_long (h : ¬IsShort p) : fs.isFile p = false := by
  rcases locate_of_long fs h with ⟨e, he, _⟩
  simp [isFile, find?, he]

theorem package_read_of_long {name : String} (h : ¬IsShort (d.join manifestName)) :
    ∃ e, Package.read fs name d = .error e := by
  rcases locate_of_long fs h with ⟨e, he, hmissing⟩
  have htext : fs.readText (d.join manifestName) = .error e := by
    rw [readText, FileSystem.read, he]
    rfl
  have hmanifest : Manifest.read fs d = .error (.unreadable (d.join manifestName)) := by
    unfold Manifest.read
    dsimp only
    rw [htext]
    cases e <;> first | rfl | exact absurd rfl hmissing
  exact ⟨_, by rw [Package.read, hmanifest]; rfl⟩

end Long

def dottedName (n : Nat) : String :=
  String.ofList ('a' :: (List.replicate n '.' ++ ['b']))

theorem relativeName_dotted (n : Nat) :
    relativeName (dottedName n) = String.ofList ('a' :: (List.replicate n '/' ++ ['b'])) := by
  simp [relativeName, dottedName]

theorem isAbsolute_dotted (n : Nat) (ending : String) :
    (⟨relativeName (dottedName n) ++ ending⟩ : Path).isAbsolute = false := by
  simp [relativeName_dotted, Path.isAbsolute]

theorem long_of_dotted {n : Nat} (h : maxPath ≤ n) (ending : String) :
    ¬IsShort ⟨relativeName (dottedName n) ++ ending⟩ := by
  have hsize := length_le_size ('a' :: (List.replicate n '/' ++ ['b']))
  rw [IsShort, relativeName_dotted, String.utf8ByteSize_append]
  simp only [List.length_cons, List.length_append, List.length_replicate] at hsize
  omega

theorem steps_dotted (n : Nat) :
    (⟨relativeName (dottedName (n + 1))⟩ : Path).steps = ["a", "b"] := by
  have habsolute := isAbsolute_dotted (n + 1) ""
  rw [String.append_empty] at habsolute
  have hslashes : ∀ k, ((Text.split '/' (List.replicate k '/' ++ ['b'])).map String.ofList).filter
      isStep = ["b"] := by
    intro k
    induction k with
    | zero => decide
    | succ k ih => simpa [List.replicate_succ, Text.split, isStep] using ih
  have hsplit : 'a' :: (List.replicate (n + 1) '/' ++ ['b']) =
      ['a'] ++ '/' :: (List.replicate n '/' ++ ['b']) := rfl
  rw [steps_eq, segments_of_relative habsolute, relativeName_dotted, String.toList_ofList, hsplit,
    split_join, List.map_append, List.filter_append, hslashes]
  decide

theorem script_dotted {n : Nat} (h : maxPath ≤ n) :
    packedResolver.script? packedFiles packedEntry (dottedName n) = none := by
  have hname : packedResolver.scriptName (dottedName n) =
      ⟨relativeName (dottedName n) ++ ("." ++ packedResolver.extension)⟩ := by
    rw [Resolver.scriptName, String.append_assoc]
  have hfile : ∀ directory : Path,
      packedFiles.isFile (directory.join (packedResolver.scriptName (dottedName n))) = false := by
    intro directory
    refine isFile_of_long fun hshort => long_of_dotted h ("." ++ packedResolver.extension) ?_
    rw [hname] at hshort
    exact Nat.lt_of_le_of_lt (size_le_join (isAbsolute_dotted n _)).2 hshort
  rw [Resolver.script?, script_of_not_isFile (hfile _), script_of_not_isFile (hfile _)]
  rfl

theorem read_dotted {n : Nat} (h : maxPath ≤ n) (name : String) :
    ∃ e, Package.read packedFiles name
      ((⟨"/project/lib"⟩ : Path).join ⟨relativeName (dottedName n)⟩) = .error e := by
  have hmanifest : manifestName.isAbsolute = false := by decide
  have habsolute := isAbsolute_dotted n ""
  have hlong := long_of_dotted h ""
  rw [String.append_empty] at habsolute hlong
  refine package_read_of_long fun hshort => hlong ?_
  exact Nat.lt_of_le_of_lt
    (Nat.le_trans (size_le_join habsolute).2 (size_le_join hmanifest).1) hshort

theorem lookup_congr [BEq α] [EquivBEq α] {a b : α} (h : (a == b) = true)
    (pairs : List (α × β)) : pairs.lookup a = pairs.lookup b := by
  induction pairs with
  | nil => rfl
  | cons pair rest ih => rw [List.lookup_cons, List.lookup_cons, BEq.congr_left h, ih]

theorem same_dotted (n : Nat) :
    ((⟨"/project/lib"⟩ : Path).join ⟨relativeName (dottedName (n + 1))⟩ ==
      (⟨"/project/lib/a/b"⟩ : Path)) = true := by
  have habsolute := isAbsolute_dotted (n + 1) ""
  rw [String.append_empty] at habsolute
  refine same_of_steps ?_ (by decide) ?_
  · rw [(segments_join _ habsolute).1]
    decide
  · rw [steps_join _ habsolute, steps_dotted]
    decide

theorem packedFiles_known : ∃ package script,
    (packedResolver.knownAfter packedFiles [(packedEntry, "a.b")]).lookup ⟨"/project/lib/a/b"⟩ =
      some (some package) ∧
    Location.ofPath packedFiles package.main (some package) = .ok script := by
  have hany : ((packedResolver.knownAfter packedFiles [(packedEntry, "a.b")]).lookup
      ⟨"/project/lib/a/b"⟩).any (fun found => found.any fun package =>
        (Location.ofPath packedFiles package.main (some package)).toOption.isSome) = true := by
    decide +kernel
  rcases (Option.any_eq_true _ _).mp hany with ⟨found, hlookup, hfound⟩
  rcases (Option.any_eq_true _ _).mp hfound with ⟨package, rfl, hpath⟩
  cases hscript : Location.ofPath packedFiles package.main (some package) with
  | error e =>
      rw [hscript] at hpath
      cases hpath
  | ok script => exact ⟨package, script, hlookup, hscript⟩

/-- The package that a resolver has found answers for a name that no fresh one can look up. -/
theorem differs_dotted {n : Nat} (h : maxPath ≤ n) :
    shown (packedResolver.resolve packedFiles packedEntry (dottedName n)
        (packedResolver.knownAfter packedFiles [(packedEntry, "a.b")])).1 ≠
      shown (packedResolver.resolve packedFiles packedEntry (dottedName n) []).1 := by
  have hnone := script_dotted h
  have hroots : packedResolver.dependencyRoots = [⟨"/project/lib"⟩] := rfl
  rcases read_dotted h (dottedName n) with ⟨e, hread⟩
  rcases packedFiles_known with ⟨package, script, hlookup, hpath⟩
  rcases Nat.exists_eq_add_one_of_ne_zero (Nat.ne_of_gt (Nat.lt_of_lt_of_le (by decide) h)) with
    ⟨k, rfl⟩
  rw [← lookup_congr (same_dotted k)] at hlookup
  have hfresh : (packedResolver.resolve packedFiles packedEntry (dottedName (k + 1)) []).1 =
      .error e := by
    rw [(resolve_of_none _ packedEntry _ hnone).1, search_bind, hroots, firstPackage, search_bind,
      knownPackage_eq, List.lookup_nil, hread]
  have hkept : (packedResolver.resolve packedFiles packedEntry (dottedName (k + 1))
      (packedResolver.knownAfter packedFiles [(packedEntry, "a.b")])).1 = .ok (some script) := by
    rw [(resolve_of_none _ packedEntry _ hnone).1, search_bind, hroots, firstPackage, search_bind,
      knownPackage_eq, hlookup]
    exact congrArg Prod.fst (run_ofPath hpath _)
  rw [hfresh, hkept]
  nofun

/-- One such name, in a call after one that found the package. -/
theorem packedFiles_dotted :
    shown (packedResolver.resolve packedFiles packedEntry (dottedName 5000)
        (packedResolver.knownAfter packedFiles [(packedEntry, "a.b")])).1 ≠
      shown (packedResolver.resolve packedFiles packedEntry (dottedName 5000) []).1 :=
  differs_dotted (by decide)

end LuaBundle
