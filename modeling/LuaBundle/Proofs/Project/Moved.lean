import LuaBundle.Proofs.FileSystem.Moved
import Mathlib.Data.List.Forall2

/-!
# Searches under two roots

A search for a module takes the same course in one tree under two roots: it finds the same
script, or fails alike.  This takes names that do not lead out of the tree, and paths that can
be looked up under both roots or under neither.
-/

namespace LuaBundle

open FileSystem

/-!
## Outcomes

What a search gives, or how it fails, under one root and under another.
-/

def BundleError.file : BundleError → Path
  | .configuration file _ => file
  | .invalidManifest file => file
  | .unresolved _ requester => requester
  | .unsupportedRequire file _ => file
  | .entryRequired file _ _ => file
  | .reservedName file _ => file
  | .unparsable file _ => file
  | .unreadable file => file
  | .unwritable file => file

def BundleError.at (file : Path) : BundleError → BundleError
  | .configuration _ message => .configuration file message
  | .invalidManifest _ => .invalidManifest file
  | .unresolved module _ => .unresolved module file
  | .unsupportedRequire _ line => .unsupportedRequire file line
  | .entryRequired _ line module => .entryRequired file line module
  | .reservedName _ name => .reservedName file name
  | .unparsable _ cause => .unparsable file cause
  | .unreadable _ => .unreadable file
  | .unwritable _ => .unwritable file

/-- Whether two errors are the same but for the root below which their file lies. -/
structure BundleError.Moved (p q : Place) (e e' : BundleError) : Prop where
  file : Path.Moved p q e.file e'.file
  same : e.at e'.file = e'

/-- Outcomes under two roots: values that correspond, or the same error. -/
inductive MovedOutcome (p q : Place) (A : α → β → Prop) :
    Except BundleError α → Except BundleError β → Prop where
  | ok {a b} (h : A a b) : MovedOutcome p q A (.ok a) (.ok b)
  | error {e e'} (h : e.Moved p q e') : MovedOutcome p q A (.error e) (.error e')

section Outcomes

variable {p q : Place} {A : α → β → Prop} {B : γ → δ → Prop}

theorem MovedOutcome.cases {x : Except BundleError α} {y : Except BundleError β}
    (h : MovedOutcome p q A x y) :
    (∃ e e', x = .error e ∧ y = .error e' ∧ e.Moved p q e') ∨
      ∃ a b, x = .ok a ∧ y = .ok b ∧ A a b := by
  cases h with
  | ok hab => exact .inr ⟨_, _, rfl, rfl, hab⟩
  | error he => exact .inl ⟨_, _, rfl, rfl, he⟩

theorem MovedOutcome.bind {x : Except BundleError α} {y : Except BundleError β}
    {f : α → Except BundleError γ} {g : β → Except BundleError δ} (h : MovedOutcome p q A x y)
    (hnext : ∀ a b, A a b → MovedOutcome p q B (f a) (g b)) :
    MovedOutcome p q B (x >>= f) (y >>= g) := by
  cases h with
  | ok hab => exact hnext _ _ hab
  | error he => exact .error he

theorem MovedOutcome.map {x : Except BundleError α} {y : Except BundleError β} {f : α → γ}
    {g : β → δ} (h : MovedOutcome p q A x y) (hnext : ∀ a b, A a b → B (f a) (g b)) :
    MovedOutcome p q B (x.map f) (y.map g) := by
  cases h with
  | ok hab => exact .ok (hnext _ _ hab)
  | error he => exact .error he

end Outcomes

/-!
## Scripts and packages

Everything that a search knows names paths, and each of them is moved from the one root to the
other.
-/

/-- Whether two packages have the same main script below two roots. -/
structure Package.Moved (p q : Place) (a b : Package) : Prop where
  main : Path.MovedBelow p q a.main b.main
  mainDir : Path.Moved p q a.mainDir b.mainDir
  short : IsShort a.main ↔ IsShort b.main

/-- Whether two locations are of one script below two roots, in the same package. -/
structure Location.Moved (p q : Place) (s t : Location) : Prop where
  path : Path.MovedBelow p q s.path t.path
  directory : Path.Moved p q s.directory t.directory
  package : Option.Rel (Package.Moved p q) s.package t.package

/-- Whether the same is known about directories below two roots. -/
def Known.Moved (p q : Place) (known known' : Known) : Prop :=
  List.Forall₂ (fun e e' => Path.Moved p q e.1 e'.1 ∧ Option.Rel (Package.Moved p q) e.2 e'.2)
    known known'

/-- Whether two resolvers search the same directories below two roots. -/
structure Resolver.Moved (p q : Place) (r r' : Resolver) : Prop where
  extension : r'.extension = r.extension
  plain : '/' ∉ r.extension.toList
  entryDir : Path.Moved p q r.entryDir r'.entryDir
  dependencyRoots : List.Forall₂ (Path.Moved p q) r.dependencyRoots r'.dependencyRoots

/-- Whether a path can be looked up under one root exactly when it can under the other. -/
def Path.FitsAlike (p q : Place) (a : Path) : Prop :=
  ∀ b, Path.Moved p q a b → (IsShort a ↔ IsShort b)

/-!
## Names of modules
-/

def IsRelativeName (module : String) : Prop :=
  ∀ c ∈ module.toList.head?, c ≠ '.' ∧ c ≠ '/'

-- The first letter is all that is looked at, and not every letter there is.
instance (module : String) : Decidable (IsRelativeName module) :=
  Option.decidableForallMem module.toList.head?

theorem point_not_mem (module : String) : '.' ∉ (relativeName module).toList := by
  intro hmem
  rw [relativeName, String.toList_ofList, List.mem_map] at hmem
  obtain ⟨c, _, hc⟩ := hmem
  split at hc
  · cases hc
  · contradiction

theorem relative_of_head {module : String} (h : IsRelativeName module) (ending : String)
    (hending : ending.toList.head? ≠ some '/') :
    (⟨relativeName module ++ ending⟩ : Path).isAbsolute = false := by
  unfold Path.isAbsolute relativeName
  cases hlist : module.toList with
  | nil => simpa using hending
  | cons c rest =>
    have hc := h c (by simp [hlist])
    simp [hc]

theorem relativeName_inner {module : String} (h : IsRelativeName module) :
    (⟨relativeName module⟩ : Path).IsInner := by
  constructor
  case relative => simpa using relative_of_head h "" (by simp)
  case inside =>
    apply Path.staysInside_of_no_parent
    intro hparent
    apply point_not_mem module
    exact (mem_segments (p := ⟨relativeName module⟩) (by decide)).mpr ⟨"..", hparent, by simp⟩

theorem split_append_plain (text : List Char) {ending : List Char} (h : '/' ∉ ending) :
    ∃ front last, Text.split '/' text = front ++ [last] ∧
      Text.split '/' (text ++ ending) = front ++ [last ++ ending] := by
  induction text with
  | nil => exact ⟨[], [], rfl, by simpa using split_of_not_mem h⟩
  | cons c rest ih =>
    obtain ⟨front, last, hrest, hmore⟩ := ih
    rw [List.cons_append, Text.split, Text.split, hrest, hmore]
    by_cases hc : c = '/'
    · rw [if_pos hc, if_pos hc]
      exact ⟨[] :: front, last, rfl, rfl⟩
    · rw [if_neg hc, if_neg hc]
      cases front with
      | nil => exact ⟨[], c :: last, rfl, rfl⟩
      | cons first others => exact ⟨(c :: first) :: others, last, rfl, rfl⟩

theorem scriptName_segments {resolver : Resolver} (hplain : '/' ∉ resolver.extension.toList)
    {module : String} (h : IsRelativeName module) :
    (resolver.scriptName module).isAbsolute = false ∧
      ∃ front last, (resolver.scriptName module).segments = front ++ [last] ∧ ".." ∉ front := by
  have hending : '/' ∉ ("." ++ resolver.extension).toList := by simpa using hplain
  have hname : resolver.scriptName module =
      ⟨relativeName module ++ ("." ++ resolver.extension)⟩ := by
    rw [Resolver.scriptName, String.append_assoc]
  have hrelative : (resolver.scriptName module).isAbsolute = false := by
    rw [hname]
    exact relative_of_head h _ (by simp)
  obtain ⟨front, last, hsplit, hmore⟩ := split_append_plain (relativeName module).toList hending
  have hsegments : (resolver.scriptName module).segments =
      front.map String.ofList ++ [String.ofList (last ++ ("." ++ resolver.extension).toList)] := by
    rw [segments_of_relative hrelative, hname, String.toList_append, hmore, List.map_append]
    rfl
  refine ⟨hrelative, _, _, hsegments, ?_⟩
  intro hparent
  obtain ⟨piece, hpiece, heq⟩ := List.mem_map.mp hparent
  apply point_not_mem module
  have hpoint : '.' ≠ '/' := by decide
  rw [mem_split hpoint, hsplit]
  refine ⟨piece, List.mem_append_left _ hpiece, ?_⟩
  have hletters := congrArg String.toList heq
  rw [String.toList_ofList] at hletters
  simp [hletters]

/-- The name of a script stays inside, or ends with `..`, as it may with a point for an
extension. -/
theorem scriptName_cases {resolver : Resolver} (hplain : '/' ∉ resolver.extension.toList)
    {module : String} (h : IsRelativeName module) :
    (resolver.scriptName module).IsInner ∨
      (resolver.scriptName module).isAbsolute = false ∧
        ∃ front, (resolver.scriptName module).segments = front ++ [".."] := by
  obtain ⟨hrelative, front, last, hsegments, hfront⟩ := scriptName_segments hplain h
  by_cases hlast : last = ".."
  · right
    rw [hlast] at hsegments
    exact ⟨hrelative, _, hsegments⟩
  · left
    constructor
    case relative => exact hrelative
    case inside =>
      rw [hsegments]
      apply Path.staysInside_of_no_parent
      rw [List.mem_append, List.mem_singleton, not_or]
      exact ⟨hfront, fun heq => hlast heq.symm⟩

/-!
## Tables
-/

theorem lookup_moved {p q : Place} (hp : ∀ name ∈ p, IsProper name)
    (hq : ∀ name ∈ q, IsProper name) {A : α → β → Prop} {table : List (Path × α)}
    {table' : List (Path × β)}
    (h : List.Forall₂ (fun e e' => Path.Moved p q e.1 e'.1 ∧ A e.2 e'.2) table table') {a b : Path}
    (hab : Path.Moved p q a b) : Option.Rel A (table.lookup a) (table'.lookup b) := by
  induction h with
  | nil => exact .none
  | @cons e e' rest rest' hentry hrest ih =>
    rw [List.lookup_cons, List.lookup_cons, hab.beq hp hq hentry.1]
    cases b == e'.1 with
    | true => exact .some hentry.2
    | false => exact ih

/-!
## Running searches
-/

/-- Whether two searches take the same course when the same is known. -/
structure MovedSearch (p q : Place) (A : α → β → Prop) (search : Search α) (search' : Search β) :
    Prop where
  run : ∀ {known known'}, Known.Moved p q known known' →
    MovedOutcome p q A (search known).1 (search' known').1 ∧
      Known.Moved p q (search known).2 (search' known').2

section Searches

variable {p q : Place} {A : α → β → Prop} {B : γ → δ → Prop}

theorem movedSearch_pure {a : α} {b : β} (h : A a b) :
    MovedSearch p q A (pure a : Search α) (pure b : Search β) where
  run hknown := ⟨.ok h, hknown⟩

theorem movedSearch_lift {x : Except BundleError α} {y : Except BundleError β}
    (h : MovedOutcome p q A x y) :
    MovedSearch p q A (liftM x : Search α) (liftM y : Search β) where
  run hknown := by
    cases h with
    | ok hab => exact ⟨.ok hab, hknown⟩
    | error he => exact ⟨.error he, hknown⟩

theorem MovedSearch.bind {search : Search α} {search' : Search β} {next : α → Search γ}
    {next' : β → Search δ} (h : MovedSearch p q A search search')
    (hnext : ∀ a b, A a b → MovedSearch p q B (next a) (next' b)) :
    MovedSearch p q B (search >>= next) (search' >>= next') where
  run {known known'} hknown := by
    obtain ⟨hfirst, hbetween⟩ := h.run hknown
    rw [search_bind, search_bind]
    rcases hrun : search known with ⟨outcome, between⟩
    rcases hrun' : search' known' with ⟨outcome', between'⟩
    rw [hrun, hrun'] at hfirst hbetween
    cases hfirst with
    | ok hab => exact (hnext _ _ hab).run hbetween
    | error he => exact ⟨.error he, hbetween⟩

end Searches

/-!
## Looking up scripts and packages
-/

/-- Candidates that correspond: neither is a file, or both are, and in the same package. -/
structure CandidateMoved (fs fs' : FileSystem) (p q : Place) (c c' : Path × Option Package) :
    Prop where
  isFile : fs.isFile c.1 = fs'.isFile c'.1
  path : fs.isFile c.1 = true → Path.Moved p q c.1 c'.1
  package : Option.Rel (Package.Moved p q) c.2 c'.2

section Lookups

variable {fs fs' : FileSystem} {p q : Place} (h : SameTree fs fs' p q)
include h

theorem ofPath_moved {a b : Path} (hab : Path.Moved p q a b) (hfits : IsShort a ↔ IsShort b)
    (hfile : fs.isFile a = true) {package package' : Option Package}
    (hpackage : Option.Rel (Package.Moved p q) package package') :
    MovedOutcome p q (Location.Moved p q) (Location.ofPath fs a package)
      (Location.ofPath fs' b package') := by
  obtain ⟨c, d, ha, hb, hcd⟩ := h.canonicalize_file hab hfits hfile
  rw [Location.ofPath, Location.ofPath, canonical, canonical, ha, hb]
  exact .ok ⟨hcd, h.directory hcd, hpackage⟩

theorem firstScript_moved {candidates candidates' : List (Path × Option Package)}
    (hcandidates : List.Forall₂ (CandidateMoved fs fs' p q) candidates candidates') :
    MovedOutcome p q (Option.Rel (Location.Moved p q)) (firstScript fs candidates)
      (firstScript fs' candidates') := by
  induction hcandidates with
  | nil => exact .ok .none
  | @cons c c' rest rest' hc hrest ih =>
    unfold firstScript at ih ⊢
    rw [List.find?_cons, List.find?_cons, ← hc.isFile]
    cases hfile : fs.isFile c.1 with
    | false => exact ih
    | true =>
      have hfile' : fs'.isFile c'.1 = true := by rw [← hc.isFile, hfile]
      have hshort : IsShort c.1 ↔ IsShort c'.1 := by
        constructor
        · intro _
          by_contra hlong
          rw [isFile_of_long hlong] at hfile'
          cases hfile'
        · intro _
          by_contra hlong
          rw [isFile_of_long hlong] at hfile
          cases hfile
      apply (ofPath_moved h (hc.path hfile) hshort hfile hc.package).map
      intro a b hab
      exact .some hab

/-- Manifests of one directory are the same but for the root that the directory is below. -/
theorem manifest_moved {d d' : Path} (hd : Path.Moved p q d d')
    (hfits : (d.join manifestName).FitsAlike p q) :
    MovedOutcome p q
      (Option.Rel fun manifest manifest' => manifest.directory = d ∧
        manifest' = { manifest with directory := d' })
      (Manifest.read fs d) (Manifest.read fs' d') := by
  have hinner : manifestName.IsInner := by decide
  have hfile := hd.join hinner
  have htext : fs.readText (d.join manifestName) = fs'.readText (d'.join manifestName) := by
    rw [readText, readText, h.read hfile (hfits _ hfile)]
  unfold Manifest.read
  dsimp only
  rw [htext]
  cases fs'.readText (d'.join manifestName) with
  | error e =>
    cases e with
    | missing => exact .ok .none
    | _ => exact .error ⟨hfile, rfl⟩
  | ok text =>
    cases text with
    | none => exact .error ⟨hfile, rfl⟩
    | some text =>
      simp only
      rw [ofText_directory d d' text]
      cases hmanifest : Manifest.ofText? d text with
      | none => exact .error ⟨hfile, rfl⟩
      | some manifest => exact .ok (.some ⟨directory_of_ofText hmanifest, rfl⟩)

/-- What the package of a directory needs to be the same below both roots. -/
structure PackageFits (fs : FileSystem) (p q : Place) (name : String) (d : Path) : Prop where
  manifest : (d.join manifestName).FitsAlike p q
  inner : ∀ manifest, Manifest.read fs d = .ok (some manifest) →
    ∀ main ∈ manifest.build.bind BuildOptions.main, main.IsInner
  main : ∀ manifest main, Manifest.read fs d = .ok (some manifest) →
    manifest.main? = some main → main.FitsAlike p q
  package : ∀ package, Package.read fs name d = .ok (some package) → package.main.FitsAlike p q

theorem package_moved {name : String} {d d' : Path} (hd : Path.Moved p q d d')
    (hfits : PackageFits fs p q name d) :
    MovedOutcome p q (Option.Rel (Package.Moved p q)) (Package.read fs name d)
      (Package.read fs' name d') := by
  rcases (manifest_moved h hd hfits.manifest).cases with
    ⟨e, e', hread, hread', he⟩ | ⟨found, found', hread, hread', hsame⟩
  · rw [Package.read, Package.read, hread, hread']
    exact .error he
  cases hsame with
  | none =>
    rw [Package.read, Package.read, hread, hread']
    exact .ok .none
  | @some manifest manifest' hmanifest =>
    obtain ⟨hdirectory, rfl⟩ := hmanifest
    have hmain := main_directory manifest
    have hmain' := main_directory { manifest with directory := d' }
    have hpackage : Package.read fs name d = _ := package_read_of_manifest hread
    rw [package_read_of_manifest hread']
    rw [hdirectory] at hmain
    cases hdeclared : manifest.build.bind BuildOptions.main with
    | none =>
      rw [hdeclared] at hmain hmain'
      rw [hpackage, hmain, hmain']
      exact .ok .none
    | some main =>
      rw [hdeclared, Option.map_some] at hmain hmain'
      have hmoved := hd.join (hfits.inner manifest hread main hdeclared)
      have hshort := hfits.main manifest _ hread hmain _ hmoved
      rw [hmain, Option.filter_some] at hpackage
      rw [hmain', Option.filter_some, ← h.isFile hmoved hshort]
      cases hfile : fs.isFile (d.join main) with
      | false =>
        rw [hfile] at hpackage
        rw [hpackage]
        exact .ok .none
      | true =>
        obtain ⟨c, c', hc, hc', hcc⟩ := h.canonicalize_file hmoved hshort hfile
        rw [hfile, if_pos rfl, Option.bind_some, hc] at hpackage
        rw [if_pos rfl, Option.bind_some, hc', hpackage]
        have hfit := hfits.package _ hpackage c' (h.moved hcc)
        exact .ok (.some ⟨hcc, h.directory hcc, hfit⟩)

theorem main_moved {a b : Package} (hab : a.Moved p q b) :
    MovedOutcome p q (Location.Moved p q) (Location.ofPath fs a.main (some a))
      (Location.ofPath fs' b.main (some b)) := by
  have hmain := h.moved hab.main
  rcases h.canonicalize hmain hab.short with ⟨e, ha, hb⟩ | ⟨names, hnames, ha, hb⟩
  · rw [Location.ofPath, Location.ofPath, canonical, canonical, ha, hb]
    exact .error ⟨hmain, rfl⟩
  · obtain ⟨place, _, hplace, hspelled, hspelled'⟩ := id hab.main
    have hsame : Path.ofNames (p ++ names) = a.main := by
      rw [hspelled] at ha
      rw [hspelled, eq_of_canonicalize (List.forall_mem_append.mpr ⟨h.root.proper, hplace⟩)
        (isReal_below h.root.real h.free place) ha]
    have hsame' : Path.ofNames (q ++ names) = b.main := by
      rw [hspelled'] at hb
      rw [hspelled', eq_of_canonicalize (List.forall_mem_append.mpr ⟨h.root'.proper, hplace⟩)
        (isReal_below h.root'.real h.free' place) hb]
    rw [Location.ofPath, Location.ofPath, canonical, canonical, ha, hb, hsame, hsame']
    exact .ok ⟨hab.main, h.directory hab.main, .some hab⟩

theorem knownPackage_moved {name : String} {d d' : Path} (hd : Path.Moved p q d d')
    (hfits : PackageFits fs p q name d) :
    MovedSearch p q (Option.Rel (Package.Moved p q)) (knownPackage fs name d)
      (knownPackage fs' name d') where
  run {known known'} hknown := by
    have hlookup := lookup_moved h.root.proper h.root'.proper hknown hd
    rw [knownPackage_eq, knownPackage_eq]
    generalize known.lookup d = found at hlookup
    generalize known'.lookup d' = found' at hlookup
    cases hlookup with
    | some hpackage => exact ⟨.ok hpackage, hknown⟩
    | none =>
      rcases (package_moved h hd hfits).cases with
        ⟨e, e', hread, hread', he⟩ | ⟨package, package', hread, hread', hpackage⟩
      · rw [hread, hread']
        exact ⟨.error he, hknown⟩
      · rw [hread, hread']
        exact ⟨.ok hpackage, List.rel_append hknown (.cons ⟨hd, hpackage⟩ .nil)⟩

theorem firstPackage_moved {name : String} (hname : IsRelativeName name) {roots roots' : List Path}
    (hroots : List.Forall₂ (Path.Moved p q) roots roots')
    (hfits : ∀ root ∈ roots, PackageFits fs p q name (root.join ⟨relativeName name⟩)) :
    MovedSearch p q (Option.Rel (Package.Moved p q)) (firstPackage fs name roots)
      (firstPackage fs' name roots') := by
  induction hroots with
  | nil => exact movedSearch_pure .none
  | @cons root root' roots roots' hroot hroots ih =>
    rw [List.forall_mem_cons] at hfits
    rw [firstPackage, firstPackage]
    apply (knownPackage_moved h (hroot.join (relativeName_inner hname)) hfits.1).bind
    intro package package' hpackage
    cases hpackage with
    | none => exact ih hfits.2
    | some hpackage => exact movedSearch_pure (.some hpackage)

end Lookups

/-!
## Searching for modules
-/

inductive Resolver.LooksUp (resolver : Resolver) (fs : FileSystem) (requester : Location)
    (module : String) : Path → Prop where
  | candidate {c} (h : c ∈ resolver.candidates requester module) :
      resolver.LooksUp fs requester module c.1
  | manifest {root} (h : root ∈ resolver.dependencyRoots) :
      resolver.LooksUp fs requester module ((root.join ⟨relativeName module⟩).join manifestName)
  | main {root manifest main} (h : root ∈ resolver.dependencyRoots)
      (hread : Manifest.read fs (root.join ⟨relativeName module⟩) = .ok (some manifest))
      (hmain : manifest.main? = some main) : resolver.LooksUp fs requester module main
  | package {root package} (h : root ∈ resolver.dependencyRoots)
      (hread : Package.read fs module (root.join ⟨relativeName module⟩) = .ok (some package)) :
      resolver.LooksUp fs requester module package.main

/-- Whether the manifests below a place name main scripts that lie there, too. -/
def FileSystem.HasInnerMains (fs : FileSystem) (p : Place) : Prop :=
  ∀ rel : Path, rel.IsInner → ∀ manifest,
    Manifest.read fs ((Path.ofNames p).join rel) = .ok (some manifest) →
      ∀ main ∈ manifest.build.bind BuildOptions.main, main.IsInner

theorem Path.Moved.join_inner {p q : Place} {a b rel : Path} (h : Path.Moved p q a b)
    (hrel : rel.IsInner) :
    ∃ rel' : Path, rel'.IsInner ∧ a.join rel = (Path.ofNames p).join rel' := by
  cases h with
  | root => exact ⟨rel, hrel, rfl⟩
  | inner hfirst => exact ⟨_, hfirst.join hrel, join_assoc _ hfirst.relative⟩

theorem exists_moved {p q : Place} {roots roots' : List Path}
    (h : List.Forall₂ (Path.Moved p q) roots roots') {root : Path} (hroot : root ∈ roots) :
    ∃ root', Path.Moved p q root root' := by
  induction h with
  | nil => cases hroot
  | cons hfirst _ ih =>
    rcases List.mem_cons.mp hroot with rfl | hroot
    · exact ⟨_, hfirst⟩
    · exact ih hroot

section Resolver

variable {fs fs' : FileSystem} {p q : Place} {r r' : Resolver} {s s' : Location} {name : String}

theorem candidate_moved (h : SameTree fs fs' p q) (hr : r.Moved p q r')
    (hname : IsRelativeName name) {d d' : Path} (hd : Path.Moved p q d d')
    (hfits : (d.join (r.scriptName name)).FitsAlike p q) {package package' : Option Package}
    (hpackage : Option.Rel (Package.Moved p q) package package') :
    CandidateMoved fs fs' p q (d.join (r.scriptName name), package)
      (d'.join (r'.scriptName name), package') := by
  have hscript : r'.scriptName name = r.scriptName name := by
    rw [Resolver.scriptName, Resolver.scriptName, hr.extension]
  rw [hscript]
  rcases scriptName_cases hr.plain hname with hinner | ⟨hrelative, front, hsegments⟩
  · have hmoved := hd.join hinner
    have hfile :
        fs.isFile (d.join (r.scriptName name)) = fs'.isFile (d'.join (r.scriptName name)) :=
      h.isFile hmoved (hfits _ hmoved)
    constructor <;> dsimp only
    case isFile => exact hfile
    case path => exact fun _ => hmoved
    case package => exact hpackage
  · -- A path that ends with two points leads to no file under either root.
    have hnone : ∀ {fs : FileSystem} {d : Path}, d.isAbsolute = true →
        fs.isFile (d.join (r.scriptName name)) = false := by
      intro fs d hd
      obtain ⟨habsolute, front', hjoin, _⟩ := segments_join d hrelative
      have hend : (d.join (r.scriptName name)).segments = (front' ++ front) ++ [".."] := by
        rw [hjoin, hsegments, List.append_assoc]
      have hroot : (d.join (r.scriptName name)).isAbsolute = true := by rw [habsolute, hd]
      exact isFile_of_parent hroot hend
    obtain ⟨hd, hd', _⟩ := hd.steps h.root.proper h.root'.proper
    constructor <;> dsimp only
    case isFile => rw [hnone hd, hnone hd']
    case path =>
      intro hfile
      rw [hnone hd] at hfile
      cases hfile
    case package => exact hpackage

theorem resolve_moved (h : SameTree fs fs' p q) (hmains : fs.HasInnerMains p) (hr : r.Moved p q r')
    (hs : s.Moved p q s') (hname : IsRelativeName name)
    (hfits : ∀ path, r.LooksUp fs s name path → path.FitsAlike p q) :
    MovedSearch p q (Option.Rel (Location.Moved p q)) (r.resolve fs s name)
      (r'.resolve fs' s' name) := by
  have hcandidates : List.Forall₂ (CandidateMoved fs fs' p q) (r.candidates s name)
      (r'.candidates s' name) := by
    have hall : ∀ path package, (path, package) ∈ r.candidates s name → path.FitsAlike p q :=
      fun path package hc => hfits _ (.candidate hc)
    unfold Resolver.candidates at hall ⊢
    have hpackages := hs.package
    generalize s.package = package at hpackages hall ⊢
    generalize s'.package = package' at hpackages ⊢
    have hfirst := candidate_moved h hr hname hs.directory
      (hall _ package (by simp)) hpackages
    have hsecond := candidate_moved h hr hname hr.entryDir
      (hall _ none (by simp)) .none
    cases hpackages with
    | none => exact .cons hfirst (.cons hsecond .nil)
    | @some a b hab =>
      have hthird := candidate_moved h hr hname hab.mainDir
        (hall _ (some a) (by simp)) (.some hab)
      exact .cons hfirst (.cons hsecond (.cons hthird .nil))
  have hpackages : ∀ root ∈ r.dependencyRoots,
      PackageFits fs p q name (root.join ⟨relativeName name⟩) := by
    intro root hroot
    constructor
    case manifest => exact hfits _ (.manifest hroot)
    case inner =>
      obtain ⟨root', hmoved⟩ := exists_moved hr.dependencyRoots hroot
      obtain ⟨rel, hrel, hjoin⟩ := hmoved.join_inner (relativeName_inner hname)
      rw [hjoin]
      exact hmains rel hrel
    case main => exact fun manifest main hread hmain => hfits _ (.main hroot hread hmain)
    case package => exact fun package hread => hfits _ (.package hroot hread)
  unfold Resolver.resolve
  apply (movedSearch_lift (firstScript_moved h hcandidates)).bind
  intro script script' hscript
  cases hscript with
  | some hscript => exact movedSearch_pure (.some hscript)
  | none =>
    apply (firstPackage_moved h hname hr.dependencyRoots hpackages).bind
    intro package package' hpackage
    cases hpackage with
    | none => exact movedSearch_pure .none
    | some hpackage =>
      apply (movedSearch_lift (main_moved h hpackage)).bind
      intro script script' hscript
      exact movedSearch_pure (.some hscript)

end Resolver

end LuaBundle
