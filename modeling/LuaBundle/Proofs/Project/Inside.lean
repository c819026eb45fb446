import LuaBundle.Proofs.FileSystem.Below
import LuaBundle.Proofs.Project.Files
import LuaBundle.Proofs.Project.Moved

/-!
# Scripts inside their directories

A module name that starts with neither a point nor a slash leads below the directory that its
script is found through.  A script is known by its canonical path, though, and this lies
elsewhere when a link is on the way that leads out of the directory.
-/

namespace LuaBundle

open FileSystem

def Path.LiesIn (p d : Path) : Prop :=
  d.components <+: p.components ∧ d.components ≠ p.components

instance (p d : Path) : Decidable (p.LiesIn d) :=
  inferInstanceAs (Decidable (_ ∧ _))

/-- Whether a location is that of a file, at its canonical path. -/
def Location.IsScript (fs : FileSystem) (s : Location) : Prop :=
  ∃ p, fs.isFile p = true ∧ Location.ofPath fs p s.package = .ok s

/-- The directories in which the script of a module is looked for, in order. -/
def Resolver.directories (resolver : Resolver) (requester : Location) : List Path :=
  [requester.directory, resolver.entryDir] ++ (requester.package.map (·.mainDir)).toList

/-- The directory through which the script of a module is found. -/
def Resolver.foundIn? (resolver : Resolver) (fs : FileSystem) (requester : Location)
    (module : String) : Option Path :=
  (resolver.directories requester).find? fun d => fs.isFile (d.join (resolver.scriptName module))

section Inside

variable {fs : FileSystem} {resolver : Resolver} {requester : Location} {module : String}
  {d : Path}

/-!
## Directories of scripts
-/

theorem directory_of_isFile (hfs : fs.HasProperPlace) {p path : Path} (h : fs.isFile p = true)
    (hpath : fs.canonicalize p = .ok path) :
    ∃ names, directoryOf path = .ofNames names ∧ (∀ name ∈ names, IsProper name) ∧
      fs.IsReal names := by
  rcases place_of_isFile h with ⟨place, content, hlocate, hentry, hcanonical⟩
  cases hpath.symm.trans hcanonical
  rcases proper_of_locate hfs hlocate with ⟨hproper, hreal⟩
  have hne : place ≠ [] := by
    rintro rfl
    cases hentry
  exact ⟨_, Path.directory_ofNames hne hproper, fun name hname =>
    hproper name (List.dropLast_subset _ hname), hreal.of_prefix (List.dropLast_prefix place)⟩

theorem Location.IsScript.directory (hfs : fs.HasProperPlace) {s : Location} (h : s.IsScript fs) :
    ∃ names, s.directory = .ofNames names ∧ (∀ name ∈ names, IsProper name) ∧
      fs.IsReal names := by
  rcases h with ⟨p, hfile, hpath⟩
  rcases canonicalize_of_ofPath hpath with ⟨hcanonical, hdirectory⟩
  rw [hdirectory]
  exact directory_of_isFile hfs hfile hcanonical

theorem mainDir_eq {name : String} {directory : Path} {package : Package}
    (h : Package.read fs name directory = .ok (some package)) :
    package.mainDir = directoryOf package.main := by
  rcases declared_of_package_read h with ⟨_, _, _, _, _, _, hdirectory⟩
  exact hdirectory

theorem mainDir_of_read (hfs : fs.HasProperPlace) {name : String} {directory : Path}
    {package : Package} (h : Package.read fs name directory = .ok (some package)) :
    ∃ names, package.mainDir = .ofNames names ∧ (∀ name ∈ names, IsProper name) ∧
      fs.IsReal names := by
  rcases main_isFile h with ⟨main, hfile, hcanonical⟩
  rw [mainDir_eq h]
  exact directory_of_isFile hfs hfile hcanonical

/-!
## The script found through a directory
-/

theorem mem_directories (h : d ∈ resolver.directories requester) :
    d = requester.directory ∨ d = resolver.entryDir ∨ ∃ package ∈ requester.package,
      d = package.mainDir := by
  simp only [Resolver.directories, List.mem_append, List.mem_cons, List.not_mem_nil, or_false,
    Option.mem_toList, Option.map_eq_some_iff] at h
  rcases h with (h | h) | ⟨package, hpackage, h⟩
  · exact Or.inl h
  · exact Or.inr (Or.inl h)
  · exact Or.inr (Or.inr ⟨package, hpackage, h.symm⟩)

theorem script?_of_foundIn (h : resolver.foundIn? fs requester module = some d) :
    ∃ package, resolver.script? fs requester module =
      fs.script? (d.join (resolver.scriptName module)) package := by
  have hor : ∀ {p : Path} (package : Option Package) (more : Option Location),
      fs.isFile p = true → (fs.script? p package).or more = fs.script? p package := by
    intro p package more hp
    rcases script_of_isFile hp package with ⟨script, _, hscript⟩
    rw [hscript, Option.some_or]
  unfold Resolver.foundIn? Resolver.directories at h
  unfold Resolver.script?
  simp only [List.cons_append, List.nil_append, List.find?_cons] at h
  split at h
  case h_1 hfirst =>
    cases h
    exact ⟨requester.package, hor _ _ hfirst⟩
  case h_2 hfirst =>
    simp only [script_of_not_isFile hfirst, Option.none_or]
    split at h
    case h_1 hsecond =>
      cases h
      exact ⟨none, hor _ _ hsecond⟩
    case h_2 hsecond =>
      simp only [script_of_not_isFile hsecond, Option.none_or]
      cases hpackage : requester.package with
      | none =>
          rw [hpackage] at h
          cases h
      | some package =>
          rw [hpackage] at h
          have hd : d = package.mainDir := List.mem_singleton.mp (List.mem_of_find?_eq_some h)
          exact ⟨some package, by rw [hd, Option.bind_some]⟩

theorem resolve_of_foundIn (h : resolver.foundIn? fs requester module = some d) (known : Known) :
    ∃ script, (resolver.resolve fs requester module known).1 = .ok (some script) ∧
      fs.canonicalize (d.join (resolver.scriptName module)) = .ok script.path := by
  have hfile := List.find?_some h
  rcases script?_of_foundIn h with ⟨package, hscript⟩
  rcases script_of_isFile hfile package with ⟨script, hpath, hsome⟩
  rw [hsome] at hscript
  exact ⟨script, congrArg Prod.fst (resolve_of_script known requester module hscript).1,
    (canonicalize_of_ofPath hpath).1⟩

/-- A file that a relative name leads to from a directory lies in it, unless there is a link on
the way. -/
theorem liesIn_of_relative (hplain : '/' ∉ resolver.extension.toList)
    (hname : IsRelativeName module) {names : List String} (hnames : ∀ name ∈ names, IsProper name)
    (hreal : fs.IsReal names)
    (hfree : fs.meetsLink names (resolver.scriptName module).segments = false) {path : Path}
    (hfile : fs.isFile ((Path.ofNames names).join (resolver.scriptName module)) = true)
    (hpath : fs.canonicalize ((Path.ofNames names).join (resolver.scriptName module)) = .ok path) :
    path.LiesIn (.ofNames names) := by
  rcases scriptName_segments hplain hname with ⟨hrel, front, last, hsegments, hfront⟩
  rcases segments_join (.ofNames names) hrel with ⟨habsolute, above, hjoined, _⟩
  rw [hsegments, ← List.append_assoc] at hjoined
  have hstep : isStep last = true := by
    by_contra hblank
    rw [isFile_of_not_step hjoined (eq_false_of_ne_true hblank)] at hfile
    cases hfile
  have hparent : ".." ∉ (resolver.scriptName module).segments := by
    rw [hsegments, List.mem_append, List.mem_singleton, not_or]
    refine ⟨hfront, ?_⟩
    rintro rfl
    rw [isAbsolute_ofNames] at habsolute
    rw [isFile_of_parent habsolute hjoined] at hfile
    cases hfile
  rcases place_of_isFile hfile with ⟨place, _, hlocate, _, hcanonical⟩
  cases hpath.symm.trans hcanonical
  have hplace := place_of_no_parent hnames hreal hrel hparent hlocate hfree
  have hsteps : (resolver.scriptName module).steps ≠ [] := by
    rw [steps_eq, hsegments, List.filter_append, List.filter_cons_of_pos hstep]
    exact List.append_ne_nil_of_right_ne_nil _ (List.cons_ne_nil _ _)
  have hproper : ∀ name ∈ names ++ (resolver.scriptName module).steps, IsProper name :=
    List.forall_mem_append.mpr ⟨hnames, proper_steps hparent⟩
  rw [hplace, Path.LiesIn, components_ofNames hnames, components_ofNames hproper, List.map_append]
  refine ⟨⟨_, rfl⟩, fun hsame => hsteps ?_⟩
  simpa using hsame

end Inside

/-- A script in a directory, one below that directory, and one beside it, to which links lead
from the directory and from elsewhere. -/
def nestedFiles : FileSystem where
  entries := [
    (["project"], .directory),
    (["project", "a.lua"], .file []),
    (["project", "sub"], .directory),
    (["project", "sub", "main.lua"], .file []),
    (["project", "sub", "lib"], .directory),
    (["project", "sub", "lib", "util.lua"], .file []),
    (["proc"], .directory),
    (["proc", "self"], .directory)]
  links := [
    (["project", "sub", "b.lua"], ⟨"../a.lua"⟩),
    (["proc", "self", "cwd"], ⟨"/project"⟩)]
  here := ["project"]

def nestedEntry : Location where
  path := ⟨"/project/sub/main.lua"⟩
  directory := ⟨"/project/sub"⟩

def nestedResolver : Resolver :=
  .of {} nestedEntry ⟨"/project"⟩

theorem eq_of_spelling {found : Option Path} {text : String}
    (h : found.map Path.spelling = some text) : found = some ⟨text⟩ := by
  rcases Option.map_eq_some_iff.mp h with ⟨⟨_⟩, hfound, rfl⟩
  exact hfound

theorem canonicalize_of_spelling {fs : FileSystem} {p : Path} {text : String}
    (h : (fs.canonicalize p).toOption.map Path.spelling = some text) :
    fs.canonicalize p = .ok ⟨text⟩ := by
  have hsome := eq_of_spelling h
  cases hpath : fs.canonicalize p with
  | error e =>
      rw [hpath] at hsome
      cases hsome
  | ok path =>
      rw [hpath] at hsome
      exact congrArg Except.ok (Option.some.inj hsome)

theorem ofPath_of_spelling {fs : FileSystem} {p d : String} (package : Option Package)
    (hpath : (fs.canonicalize ⟨p⟩).toOption.map Path.spelling = some p)
    (hdirectory : (directoryOf ⟨p⟩).spelling = d) :
    Location.ofPath fs ⟨p⟩ package = .ok ⟨⟨p⟩, ⟨d⟩, package⟩ := by
  rw [Location.ofPath, canonical, canonicalize_of_spelling hpath, ← hdirectory]
  rfl

theorem isScript_nestedEntry : nestedEntry.IsScript nestedFiles :=
  ⟨nestedEntry.path, by decide +kernel,
    ofPath_of_spelling none (by decide +kernel) (by decide +kernel)⟩

/-- Whether a name leads from the entry to the script beside its directory, through which that
script is found. -/
def LeadsOutside (module : String) : Prop :=
  nestedResolver.foundIn? nestedFiles nestedEntry module = some ⟨"/project/sub"⟩ ∧
    ∃ script, (nestedResolver.resolve nestedFiles nestedEntry module []).1 = .ok (some script) ∧
      script.path = ⟨"/project/a.lua"⟩ ∧ ¬script.path.LiesIn ⟨"/project/sub"⟩

theorem leadsOutside_of_spelling {module : String}
    (hfound : (nestedResolver.foundIn? nestedFiles nestedEntry module).map Path.spelling =
      some "/project/sub")
    (hpath : (nestedFiles.canonicalize ((⟨"/project/sub"⟩ : Path).join
      (nestedResolver.scriptName module))).toOption.map Path.spelling =
        some "/project/a.lua") : LeadsOutside module := by
  have hdirectory := eq_of_spelling hfound
  rcases resolve_of_foundIn hdirectory [] with ⟨script, hresolve, hscript⟩
  have hplain : script.path = ⟨"/project/a.lua"⟩ :=
    Except.ok.inj (hscript.symm.trans (canonicalize_of_spelling hpath))
  refine ⟨hdirectory, script, hresolve, hplain, ?_⟩
  rw [hplain]
  decide +kernel

end LuaBundle
