import LuaBundle.Proofs.Bundle.Faults
import LuaBundle.Proofs.Project.Stateless

/-!
# Modules that are not there

When no script has the name of a module and no directory with packages holds a manifest for
it, the module is reported as unresolved.  This takes that every manifest is plainly missing.
A manifest that cannot even be looked for - there is a file where its directory would be, a
name on the way is too long, the manifest is a directory itself - is reported as unreadable
instead.
-/

namespace LuaBundle

open FileSystem Lua

/-!
## Places of packages
-/

def packageDirectory (root : Path) (module : String) : Path :=
  root.join ⟨relativeName module⟩

def packageManifest (root : Path) (module : String) : Path :=
  (packageDirectory root module).join manifestName

/-- Whether a module is not there: no script has its name, and no directory with packages
holds a manifest for it. -/
structure Resolver.Lacks (resolver : Resolver) (fs : FileSystem) (requester : Location)
    (module : String) : Prop where
  scripts : ∀ candidate ∈ resolver.candidates requester module, fs.isFile candidate.1 = false
  manifests : ∀ root ∈ resolver.dependencyRoots, fs.isFile (packageManifest root module) = false

/-- Whether a search goes past a directory with packages: it is known to have no such package,
or nothing is known and the manifest is missing. -/
def PassedOver (fs : FileSystem) (known : Known) (module : String) (root : Path) : Prop :=
  known.lookup (packageDirectory root module) = some none ∨
    known.lookup (packageDirectory root module) = none ∧
      fs.read (packageManifest root module) = .error .missing

/-- Whether a path leads nowhere because something on the way is missing. -/
def FileSystem.misses (fs : FileSystem) (p : Path) : Bool :=
  match fs.read p with
  | .error .missing => true
  | _ => false

theorem misses_iff {fs : FileSystem} {p : Path} :
    fs.misses p = true ↔ fs.read p = .error .missing := by
  unfold FileSystem.misses
  split <;> simp_all

/-- Whether a search ends at a directory with packages, behind others: nothing is known of it,
and looking for the manifest meets another trouble than that it is missing. -/
structure Blocking (fs : FileSystem) (known : Known) (module : String) (front : List Path)
    (root : Path) : Prop where
  unknown : known.lookup (packageDirectory root module) = none
  other : ∀ earlier ∈ front,
    (packageDirectory root module == packageDirectory earlier module) = false
  trouble : fs.read (packageManifest root module) ≠ .error .missing

/-!
## Searches
-/

section Searches

variable {fs : FileSystem} {known : Known} {module : String}

theorem read_of_not_isFile {p : Path} (h : fs.isFile p = false) :
    ∃ trouble, fs.read p = .error trouble := by
  unfold isFile find? at h
  unfold FileSystem.read
  cases hplace : fs.locate p with
  | error trouble => exact ⟨trouble, rfl⟩
  | ok place =>
      simp only [hplace] at h
      simp only [bind, Except.bind]
      cases hentry : fs.entry? place with
      | none => exact ⟨.missing, rfl⟩
      | some entry =>
          cases entry with
          | file content => simp [hentry] at h
          | directory => exact ⟨.isDirectory, rfl⟩

/-- Where there is no manifest, a directory has no package if the manifest is missing, and is
unreadable otherwise. -/
theorem package_read_of_missing {directory : Path}
    (h : fs.read (directory.join manifestName) = .error .missing) (name : String) :
    Package.read fs name directory = .ok none := by
  have hmanifest : Manifest.read fs directory = .ok none := by
    unfold Manifest.read FileSystem.readText
    simp only [h]
    rfl
  rw [Package.read, hmanifest]
  rfl

theorem package_read_of_trouble {directory : Path} {trouble : Trouble}
    (h : fs.read (directory.join manifestName) = .error trouble) (hne : trouble ≠ .missing)
    (name : String) :
    Package.read fs name directory = .error (.unreadable (directory.join manifestName)) := by
  have hmanifest : Manifest.read fs directory =
      .error (.unreadable (directory.join manifestName)) := by
    unfold Manifest.read FileSystem.readText
    simp only [h]
    cases trouble with
    | missing => exact absurd rfl hne
    | _ => rfl
  rw [Package.read, hmanifest]
  rfl

variable {root earlier : Path} {roots front : List Path}

/-- A directory that is passed over adds to what is known at most that it has no package. -/
theorem knownPackage_of_passedOver (h : PassedOver fs known module root) :
    ∃ more, knownPackage fs module (packageDirectory root module) known =
        (.ok none, known ++ more) ∧
      (more = [] ∨ more = [(packageDirectory root module, none)]) := by
  rw [knownPackage_eq]
  rcases h with hknown | ⟨hunknown, hmissing⟩
  · rw [hknown]
    exact ⟨[], by rw [List.append_nil], .inl rfl⟩
  · rw [hunknown, package_read_of_missing hmissing]
    exact ⟨_, rfl, .inr rfl⟩

theorem PassedOver.grown (h : PassedOver fs known module root) {more : Known}
    (hmore : more = [] ∨ more = [(packageDirectory earlier module, none)]) :
    PassedOver fs (known ++ more) module root := by
  unfold PassedOver
  rw [List.lookup_append]
  rcases h with hknown | ⟨hunknown, hmissing⟩
  · exact .inl (by rw [hknown, Option.some_or])
  · rw [hunknown, Option.none_or]
    rcases hmore with rfl | rfl
    · exact .inr ⟨rfl, hmissing⟩
    · rw [List.lookup_cons, List.lookup_nil]
      cases packageDirectory root module == packageDirectory earlier module with
      | true => exact .inl rfl
      | false => exact .inr ⟨rfl, hmissing⟩

theorem Blocking.grown (h : Blocking fs known module (earlier :: front) root) {more : Known}
    (hmore : more = [] ∨ more = [(packageDirectory earlier module, none)]) :
    Blocking fs (known ++ more) module front root where
  unknown := by
    rw [List.lookup_append, h.unknown, Option.none_or]
    rcases hmore with rfl | rfl
    · rfl
    · rw [List.lookup_cons, h.other earlier List.mem_cons_self, List.lookup_nil]
  other r hr := h.other r (List.mem_cons_of_mem _ hr)
  trouble := h.trouble

theorem firstPackage_of_passedOver (h : ∀ root ∈ roots, PassedOver fs known module root) :
    (firstPackage fs module roots known).1 = .ok none := by
  induction roots generalizing known with
  | nil => rfl
  | cons root roots ih =>
      rw [List.forall_mem_cons] at h
      obtain ⟨more, hrun, hmore⟩ := knownPackage_of_passedOver h.1
      rw [firstPackage, search_bind, ← packageDirectory, hrun]
      apply ih
      intro r hr
      exact (h.2 r hr).grown hmore

/-- A search ends at the first directory whose manifest cannot be looked for. -/
theorem firstPackage_of_blocking (back : List Path)
    (hmanifest : fs.isFile (packageManifest root module) = false)
    (hfront : ∀ earlier ∈ front, PassedOver fs known module earlier)
    (hroot : Blocking fs known module front root) :
    (firstPackage fs module (front ++ root :: back) known).1 =
      .error (.unreadable (packageManifest root module)) := by
  induction front generalizing known with
  | nil =>
      obtain ⟨trouble, hread⟩ := read_of_not_isFile hmanifest
      have hne : trouble ≠ .missing := by
        rintro rfl
        exact hroot.trouble hread
      rw [List.nil_append, firstPackage, search_bind, ← packageDirectory, knownPackage_eq,
        hroot.unknown, package_read_of_trouble hread hne]
      rfl
  | cons earlier front ih =>
      rw [List.forall_mem_cons] at hfront
      obtain ⟨more, hrun, hmore⟩ := knownPackage_of_passedOver hfront.1
      rw [List.cons_append, firstPackage, search_bind, ← packageDirectory, hrun]
      apply ih
      · intro r hr
        exact (hfront.2 r hr).grown hmore
      · exact hroot.grown hmore

variable {resolver : Resolver} {requester : Location}

theorem Resolver.Lacks.script (h : resolver.Lacks fs requester module) :
    resolver.script? fs requester module = none := by
  rw [← candidates_eq, List.findSome?_eq_none_iff]
  intro candidate hcandidate
  exact script_of_not_isFile (h.scripts candidate hcandidate) _

theorem resolve_of_passedOver (h : resolver.Lacks fs requester module)
    (hroots : ∀ root ∈ resolver.dependencyRoots, PassedOver fs known module root) :
    (resolver.resolve fs requester module known).1 = .ok none := by
  have hpackages := firstPackage_of_passedOver hroots
  rw [(resolve_of_none known requester module h.script).1, search_bind]
  rcases hrun : firstPackage fs module resolver.dependencyRoots known with ⟨outcome, more⟩
  rw [hrun] at hpackages
  cases hpackages
  rfl

theorem resolve_of_blocking {back : List Path} (h : resolver.Lacks fs requester module)
    (hroots : resolver.dependencyRoots = front ++ root :: back)
    (hfront : ∀ earlier ∈ front, PassedOver fs known module earlier)
    (hroot : Blocking fs known module front root) :
    (resolver.resolve fs requester module known).1 =
      .error (.unreadable (packageManifest root module)) := by
  have hmanifest := h.manifests root (by rw [hroots]; simp)
  have hpackages := firstPackage_of_blocking back hmanifest hfront hroot
  rw [(resolve_of_none known requester module h.script).1, search_bind]
  rw [← hroots] at hpackages
  rcases hrun : firstPackage fs module resolver.dependencyRoots known with ⟨outcome, more⟩
  rw [hrun] at hpackages
  cases hpackages
  rfl

end Searches

/-!
## Builds
-/

/-- How the calls end by which a script asks for a module, when something is known of
directories: with a fault, and so does a build that finds no fault before such a call. -/
structure Explorer.EndsIn (x : Explorer) (s : Location) (module : String) (known : Known)
    (e : BundleError) : Prop where
  call : ∀ explore line (d : Discovery), d.known = known →
    x.require explore s module line d = .error e
  build : ∀ front m back final line, x.Walk {} [.read x.entry] (front ++ m :: back) final →
    (∀ earlier ∈ front, earlier.fault = none) → m.state.known = known →
    m.task = .pass s (.call (.module module line)) → x.graph = .error e

section Builds

variable {x : Explorer} {s : Location} {module : String} {known : Known} {e : BundleError}

theorem Explorer.Walk.fault_eq {w final : WalkState} {tasks : List Task} {moments : List Moment}
    (h : x.Walk w tasks moments final) {m : Moment} (hm : m ∈ moments)
    (hperform : x.perform m.state m.task = .error e) : m.fault = some e := by
  induction h with
  | done w => cases hm
  | fault hfault _ ih =>
      rcases List.mem_cons.mp hm with rfl | hm
      · rw [hfault] at hperform
        cases hperform
        rfl
      · exact ih hm
  | step hstep _ ih =>
      rcases List.mem_cons.mp hm with rfl | hm
      · rw [hstep] at hperform
        cases hperform
      · exact ih hm

/-- A module that is not found ends the build, and so does a search that fails. -/
theorem endsIn_of_resolve (hproper : x.files.HasProperPlace)
    (h : (x.resolver.resolve x.files s module known).1 = .ok none ∧
        e = .unresolved module s.path ∨
      (x.resolver.resolve x.files s module known).1 = .error e) :
    x.EndsIn s module known e := by
  rcases hrun : x.resolver.resolve x.files s module known with ⟨outcome, more⟩
  rw [hrun] at h
  have harrive : ∀ w line, x.arrive w s module line (outcome, more) = .error e := by
    intro w line
    rcases h with ⟨rfl, rfl⟩ | rfl <;> rfl
  constructor
  case call =>
    rintro explore line d rfl
    have hfind : x.find s module d = .error e := by
      unfold Explorer.find
      rw [hrun]
      rcases h with ⟨rfl, rfl⟩ | rfl <;> rfl
    rw [require_eq, hfind]
  case build =>
    intro front m back final line hwalk hfront hknown htask
    obtain ⟨moments, last, hforetold⟩ := graph_faults hproper
    have hperform : x.perform m.state m.task = .error e := by
      rw [htask, Explorer.perform, hknown, hrun]
      exact harrive m.state line
    have hfault := hwalk.fault_eq (List.mem_append_right front List.mem_cons_self) hperform
    rw [hforetold.fails, ← (hforetold.only _ _ hwalk).1, List.findSome?_append,
      List.findSome?_eq_none_iff.mpr hfront, Option.none_or, List.findSome?_cons, hfault]

theorem endsIn_of_resolve_none (hproper : x.files.HasProperPlace)
    (h : (x.resolver.resolve x.files s module known).1 = .ok none) :
    x.EndsIn s module known (.unresolved module s.path) :=
  endsIn_of_resolve hproper (.inl ⟨h, rfl⟩)

theorem endsIn_of_resolve_error (hproper : x.files.HasProperPlace)
    (h : (x.resolver.resolve x.files s module known).1 = .error e) :
    x.EndsIn s module known e :=
  endsIn_of_resolve hproper (.inr h)

/-- **A module that is not there** is reported as unresolved, with the module and the script
that asks for it, when every manifest that is looked for is missing.  The first manifest that
cannot be looked for is reported as unreadable instead. -/
theorem lacking_reported (hproper : x.files.HasProperPlace)
    (h : x.resolver.Lacks x.files s module) :
    ((∀ root ∈ x.resolver.dependencyRoots, PassedOver x.files known module root) →
      (x.resolver.resolve x.files s module known).1 = .ok none ∧
        x.EndsIn s module known (.unresolved module s.path)) ∧
    ∀ front root back, x.resolver.dependencyRoots = front ++ root :: back →
      (∀ earlier ∈ front, PassedOver x.files known module earlier) →
      Blocking x.files known module front root →
      (x.resolver.resolve x.files s module known).1 =
          .error (.unreadable (packageManifest root module)) ∧
        x.EndsIn s module known (.unreadable (packageManifest root module)) := by
  constructor
  · intro hroots
    have hresolve := resolve_of_passedOver h hroots
    exact ⟨hresolve, endsIn_of_resolve_none hproper hresolve⟩
  · intro front root back hroots hfront hroot
    have hresolve := resolve_of_blocking h hroots hfront hroot
    exact ⟨hresolve, endsIn_of_resolve_error hproper hresolve⟩

end Builds

/-- A project with two directories for packages.  The second holds a file where the directory of
a package would be. -/
def blockedProject : Explorer where
  files := {
    entries := [
      (["main.lua"], .file (Text.utf8 "require 'json'".toList)),
      (["vendor"], .directory),
      (["lib"], .directory),
      (["lib", "json"], .file (Text.utf8 "{}".toList))] }
  resolver := { extension := "lua", entryDir := ⟨"/"⟩, dependencyRoots := [⟨"/vendor"⟩, ⟨"/lib"⟩] }
  entry := { path := ⟨"/main.lua"⟩, directory := ⟨"/"⟩ }

theorem blockedProject_lacks {module : String} (h : module = "json" ∨ module = "log") :
    blockedProject.resolver.Lacks blockedProject.files blockedProject.entry module := by
  rcases h with rfl | rfl <;> constructor <;> decide +kernel

theorem blockedProject_passedOver :
    PassedOver blockedProject.files [] "json" ⟨"/vendor"⟩ :=
  .inr ⟨rfl, misses_iff.mp (by decide)⟩

theorem blockedProject_blocking :
    Blocking blockedProject.files [] "json" [⟨"/vendor"⟩] ⟨"/lib"⟩ where
  unknown := rfl
  other := by decide
  trouble := mt misses_iff.mpr (by decide +kernel)

theorem blockedProject_reported :
    blockedProject.files.HasProperPlace ∧
      blockedProject.resolver.Lacks blockedProject.files blockedProject.entry "json" ∧
      (blockedProject.resolver.resolve blockedProject.files blockedProject.entry "json" []).1 =
        .error (.unreadable ⟨"/lib/json/package.json"⟩) ∧
      blockedProject.EndsIn blockedProject.entry "json" []
        (.unreadable ⟨"/lib/json/package.json"⟩) ∧
      blockedProject.resolver.Lacks blockedProject.files blockedProject.entry "log" ∧
      (blockedProject.resolver.resolve blockedProject.files blockedProject.entry "log" []).1 =
        .ok none ∧
      blockedProject.EndsIn blockedProject.entry "log" [] (.unresolved "log" ⟨"/main.lua"⟩) := by
  have hproper : blockedProject.files.HasProperPlace := hasProperPlace_of_root rfl
  have hmissing : ∀ root ∈ blockedProject.resolver.dependencyRoots,
      PassedOver blockedProject.files [] "log" root := by
    intro root hroot
    have hroots : root = ⟨"/vendor"⟩ ∨ root = ⟨"/lib"⟩ := by simpa [blockedProject] using hroot
    rcases hroots with rfl | rfl <;> exact .inr ⟨rfl, misses_iff.mp (by decide +kernel)⟩
  have hjson := blockedProject_lacks (.inl rfl)
  have hlog := blockedProject_lacks (.inr rfl)
  have hfront : ∀ earlier ∈ [⟨"/vendor"⟩], PassedOver blockedProject.files [] "json" earlier := by
    simpa using blockedProject_passedOver
  have hblocked := (lacking_reported hproper hjson).2 _ _ [] rfl hfront blockedProject_blocking
  have hunresolved := (lacking_reported hproper hlog).1 hmissing
  have hfile : packageManifest ⟨"/lib"⟩ "json" = ⟨"/lib/json/package.json"⟩ :=
    congrArg Path.mk (by decide +kernel)
  rw [hfile] at hblocked
  exact ⟨hproper, hjson, hblocked.1, hblocked.2, hlog, hunresolved.1, hunresolved.2⟩

/-- A module that is not there need not be unresolved. -/
theorem blockedProject_unreadable :
    blockedProject.resolver.Lacks blockedProject.files blockedProject.entry "json" ∧
      (blockedProject.resolver.resolve blockedProject.files blockedProject.entry "json" []).1 ≠
        .ok none := by
  have hjson := blockedProject_lacks (.inl rfl)
  constructor
  · exact hjson
  · have hroots : blockedProject.resolver.dependencyRoots = [⟨"/vendor"⟩] ++ ⟨"/lib"⟩ :: [] := rfl
    rw [resolve_of_blocking hjson hroots (by simpa using blockedProject_passedOver)
      blockedProject_blocking]
    nofun

end LuaBundle
