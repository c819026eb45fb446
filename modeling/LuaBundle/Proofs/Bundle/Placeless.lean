import LuaBundle.Proofs.Bundle.Builds
import LuaBundle.Proofs.Bundle.Targets
import LuaBundle.Proofs.FileSystem.LaidOut
import LuaBundle.Proofs.Project.Small

/-!
# Bundles do not depend on their place

A project that lies below two roots has one bundle: the code is the same to the byte, and the
scripts are those of the same names below either root.  If there is no bundle, the fault is
the same.  What this takes is that no path can be looked up under one root only: a path may be
too long behind the longer root.
-/

namespace LuaBundle

open FileSystem Lua

/-!
## Projects laid out under roots
-/

def IsInnerTree (tree : List (Place × Entry)) : Prop :=
  ∀ e ∈ tree, ∀ content ∈ (match e.2 with | .file content => some content | .directory => none),
    (∀ name ∈ scriptAsks content, IsRelativeName name) ∧
      ∀ main ∈ manifestMain? content, main.IsInner

instance (tree : List (Place × Entry)) : Decidable (IsInnerTree tree) :=
  inferInstanceAs (Decidable (∀ e ∈ tree, _))

section LaidOut

variable {root : Place} {tree : List (Place × Entry)} {config : Config} {target : Target}

/-- A project whose files do not lead out of it stays inside under every root. -/
theorem staysInside_laidOut (htree : IsInnerTree tree) (hextension : '/' ∉ config.extension.toList)
    (hdirectories : ∀ directory ∈ config.dependencyDirs, directory.IsInner) :
    target.StaysInside (laidOut root tree) root config := by
  constructor
  case extension => exact hextension
  case dependencyDirs => exact hdirectories
  case mains =>
    intro rel _ manifest hmanifest
    obtain ⟨content, hread, hmain⟩ := content_of_manifest hmanifest
    obtain ⟨names, hmem⟩ := mem_of_read_laidOut hread
    rw [← hmain]
    exact (htree _ hmem content rfl).2
  case names =>
    intro x hx s name hasks
    obtain ⟨chunk, line, hparse, hcall⟩ := hasks.asked
    obtain ⟨content, hread, hchunk⟩ := content_of_parse hparse
    rw [files_of_explorer hx] at hread
    obtain ⟨names, hmem⟩ := mem_of_read_laidOut hread
    apply (htree _ hmem content rfl).1 name
    rw [scriptAsks, hchunk]
    exact List.mem_filterMap.mpr ⟨_, hcall, rfl⟩

end LaidOut

theorem fitsAlike_of_size {p q : Place} (hp : IsLayable p) (hq : IsLayable q)
    (h : (Path.ofNames p).spelling.utf8ByteSize = (Path.ofNames q).spelling.utf8ByteSize)
    (a : Path) : a.FitsAlike p q := by
  intro b hab
  cases hab with
  | root => rw [IsShort, IsShort, h]
  | inner hrel =>
    rw [IsShort, IsShort, Path.size_join_ofNames hp.nonempty hp.proper hrel.relative,
      Path.size_join_ofNames hq.nonempty hq.proper hrel.relative, h]

def targetAt (root : Place) : Target where
  entry := .ofNames (root ++ ["main.lua"])
  projectRoot := .ofNames root
  manifest := none

theorem target_moved {p q : Place} (hp : IsLayable p) (hq : IsLayable q) :
    (targetAt p).Moved p q (targetAt q) where
  entry := Path.moved_ofNames hp.proper hq.proper hp.nonempty hq.nonempty (by simp [IsProper])
  projectRoot := .root

/-!
## One bundle under all roots
-/

/-- **Bundles do not depend on where a project lies.**  Where no path that is looked up is too
long behind one root only, bundling a target below two roots gives the same code, as many
modules and scripts of the same names, or the same error in the same file. -/
theorem bundle_placeless {fs fs' : FileSystem} {p q : Place} {config : Config}
    {target target' : Target} (hproper : fs.HasProperPlace) (hproper' : fs'.HasProperPlace)
    (htree : SameTree fs fs' p q) (htarget : target.Moved p q target')
    (hinside : target.StaysInside fs p config)
    (hfits : ∀ path, target.LooksUp fs config path → path.FitsAlike p q) :
    MovedOutcome p q (Bundle.Moved p q) (target.bundle fs config) (target'.bundle fs' config) := by
  unfold Target.bundle
  rcases (target_graph_moved hproper hproper' htree htarget hinside hfits).cases with
    ⟨e, e', hfail, hfail', he⟩ | ⟨graph, graph', hgraph, hgraph', hmoved⟩
  · rw [hfail, hfail']
    exact .error he
  · rw [hgraph, hgraph']
    have hfile := isFile_of_graph hproper hgraph
    have hname := htree.fileName htarget.entry hfile
    have hcount := hmoved.found.table.length_eq
    have hchunk : assemble graph.found.table graph.found.trees graph.main =
        assemble graph'.found.table graph'.found.trees graph'.main := by
      rw [assemble, assemble, hmoved.main, hmoved.found.trees,
        numberedTrees_congr _ (ids_moved hmoved.found.table)]
    have hcomment : metadataComment target.entry graph.found.table.length =
        metadataComment target'.entry graph'.found.table.length := by
      rw [hcount]
      unfold metadataComment
      rw [hname]
    apply MovedOutcome.ok
    constructor
    case code =>
      dsimp only
      rw [hchunk, hcomment]
    case moduleCount => exact hcount
    case parsed => exact hmoved.found.parsed

def packedTree : List (Place × Entry) := [
  (["main.lua"], .file (Text.utf8 "return require 'json'".toList)),
  (["node_modules"], .directory),
  (["node_modules", "json"], .directory),
  (["node_modules", "json", "package.json"],
    .file (Text.utf8 "\x7b\"luapack\": \x7b\"main\": \"src/a.lua\"\x7d\x7d".toList)),
  (["node_modules", "json", "src"], .directory),
  (["node_modules", "json", "src", "a.lua"], .file (Text.utf8 "return require 'b'".toList)),
  (["node_modules", "json", "src", "b.lua"], .file [])]

theorem packedTree_placeless :
    let p := ["home", "ada"]
    let q := ["srv", "site"]
    let fs := laidOut p packedTree
    let fs' := laidOut q packedTree
    fs.HasProperPlace ∧ fs'.HasProperPlace ∧ SameTree fs fs' p q ∧
      (targetAt p).Moved p q (targetAt q) ∧ (targetAt p).StaysInside fs p {} ∧
      (∀ path, (targetAt p).LooksUp fs {} path → path.FitsAlike p q) ∧
      ((targetAt p).bundle fs {}).toOption.isSome = true ∧
      MovedOutcome p q (Bundle.Moved p q) ((targetAt p).bundle fs {})
        ((targetAt q).bundle fs' {}) := by
  intro p q fs fs'
  have hp : IsLayable p := by decide
  have hq : IsLayable q := by decide
  have hproper := hasProperPlace_laidOut hp packedTree
  have hproper' := hasProperPlace_laidOut hq packedTree
  have htree := sameTree_laidOut hp hq packedTree
  have htarget := target_moved hp hq
  have hinside : (targetAt p).StaysInside fs p {} :=
    staysInside_laidOut (by decide +kernel) (by decide) (by decide)
  have hfits : ∀ path, (targetAt p).LooksUp fs {} path → path.FitsAlike p q :=
    fun path _ => fitsAlike_of_size hp hq (by decide +kernel) path
  have hbundle : ((targetAt p).bundle fs {}).toOption.isSome = true := by decide +kernel
  exact ⟨hproper, hproper', htree, htarget, hinside, hfits, hbundle,
    bundle_placeless hproper hproper' htree htarget hinside hfits⟩

/-!
## A root that is too deep
-/

/-- A script that asks for a module in a directory, with more points than are needed. -/
def dottedTree : List (Place × Entry) := [
  (["main.lua"], .file (Text.utf8 ("require '" ++ dottedName 10 ++ "'").toList)),
  (["a"], .directory),
  (["a", "b.lua"], .file [])]

def longName (n : Nat) : String :=
  String.ofList (List.replicate n 'd')

theorem length_longName (n : Nat) : (longName n).length = n := by
  simp [longName]

theorem proper_longName {n : Nat} (h : 2 < n) : IsProper (longName n) := by
  have hlength := length_longName n
  have hne : ∀ {s : String}, s.length ≤ 2 → longName n ≠ s := by
    rintro s hs rfl
    omega
  exact ⟨hne (by decide), hne (by decide), hne (by decide), by simp [longName]⟩

theorem plain_longName (n : Nat) : '\x00' ∉ (longName n).toList := by
  simp [longName]

/-- A root whose path is nearly as long as a path may be. -/
def deepRoot : Place :=
  List.replicate 16 (longName 254)

theorem isLayable_deepRoot : IsLayable deepRoot := by
  have hname : ∀ {name}, name ∈ deepRoot → name = longName 254 :=
    fun hname => (List.mem_replicate.mp hname).2
  constructor
  case nonempty => exact List.cons_ne_nil _ _
  case proper =>
    intro name hmem
    rw [hname hmem]
    exact proper_longName (by decide)
  case plain =>
    intro name hmem
    rw [hname hmem]
    exact plain_longName 254
  case short =>
    intro name hmem
    rw [hname hmem]
    decide +kernel

theorem leadsTo_of_not_isFile {x : Explorer} {s : Location} {name : String} {known : Known}
    (hroots : x.resolver.dependencyRoots = []) (hpackage : s.package = none)
    (h : x.files.isFile (s.directory.join (x.resolver.scriptName name)) = false)
    (h' : x.files.isFile (x.resolver.entryDir.join (x.resolver.scriptName name)) = false) :
    x.leadsTo known s name = none := by
  have hfirst : firstScript x.files (x.resolver.candidates s name) = .ok none := by
    have hnone : (x.resolver.candidates s name).find? (fun c => x.files.isFile c.1) = none := by
      simp [Resolver.candidates, hpackage, h, h']
    unfold firstScript
    rw [hnone]
  unfold Explorer.leadsTo Resolver.resolve
  rw [hfirst, hroots]
  rfl

/-- The path by which the module is looked up behind the deep root is too long. -/
theorem long_behind_deepRoot {resolver : Resolver} (h : resolver.extension = "lua") :
    ¬IsShort ((Path.ofNames deepRoot).join (resolver.scriptName (dottedName 10))) := by
  have hroot : (Path.ofNames deepRoot).spelling.utf8ByteSize = 4080 := by decide +kernel
  have hscript : (relativeName (dottedName 10) ++ "." ++ "lua").utf8ByteSize = 16 := by
    decide
  have hrelative :
      (⟨relativeName (dottedName 10) ++ "." ++ "lua"⟩ : Path).isAbsolute = false := by
    decide
  rw [Resolver.scriptName, h, IsShort,
    Path.size_join_ofNames isLayable_deepRoot.nonempty isLayable_deepRoot.proper hrelative, hroot,
    hscript]
  decide

theorem leadsTo_behind_deepRoot (known : Known) (entry : Location)
    (hdirectory : entry.directory = .ofNames deepRoot) (hpackage : entry.package = none) :
    ((targetAt deepRoot).explorerFrom (laidOut deepRoot dottedTree) { dependencyDirs := [] }
      entry).leadsTo known entry (dottedName 10) = none := by
  have hfile : ∀ resolver : Resolver, resolver.extension = "lua" →
      (laidOut deepRoot dottedTree).isFile
        (entry.directory.join (resolver.scriptName (dottedName 10))) = false := by
    intro resolver hextension
    rw [hdirectory]
    exact isFile_of_long (long_behind_deepRoot hextension)
  apply leadsTo_of_not_isFile
  case hroots => rfl
  case hpackage => exact hpackage
  case h => exact hfile _ rfl
  case h' => exact hfile _ rfl

theorem lookup_main : dottedTree.lookup ["main.lua"] =
    some (.file (Text.utf8 ("require '" ++ dottedName 10 ++ "'").toList)) :=
  rfl

theorem deepRoot_fails (bundle : Bundle) :
    (targetAt deepRoot).bundle (laidOut deepRoot dottedTree) { dependencyDirs := [] } ≠
      .ok bundle := by
  intro h
  have hroot := isLayable_deepRoot
  have hmain : ∀ name ∈ deepRoot ++ ["main.lua"], IsProper name :=
    List.forall_mem_append.mpr ⟨hroot.proper, by simp [IsProper]⟩
  have hreal : (laidOut deepRoot dottedTree).IsReal (deepRoot ++ ["main.lua"]) :=
    isReal_of_no_links rfl _
  obtain ⟨x, graph, hx, hgraph⟩ := explorer_of_bundle h
  obtain ⟨entry, rfl, hpath, hdirectory, hpackage⟩ := entry_of_explorer hmain hreal rfl hx
  rw [Path.directory_ofNames (by simp) hmain, List.dropLast_concat] at hdirectory
  obtain ⟨scripts, hholds⟩ := graph_holds hgraph
  obtain ⟨chunk, hparse, hpasses⟩ := hholds.explores entry List.mem_cons_self
  obtain ⟨content, hread, hchunk⟩ := content_of_parse hparse
  rw [hpath] at hread
  -- The entry asks for the module, which no candidate is.
  have hcontent : FileSystem.entry? (laidOut deepRoot dottedTree) (deepRoot ++ ["main.lua"]) =
      some (.file content) := place_of_read hmain hreal hread
  have hasks : dottedName 10 ∈ scriptAsks content := by
    rw [entry_laidOut_below hroot.nonempty, if_neg (List.cons_ne_nil _ _), lookup_main,
      Option.some.injEq, Entry.file.injEq] at hcontent
    rw [← hcontent]
    decide +kernel
  rw [scriptAsks, hchunk] at hasks
  obtain ⟨stop, hstop, heq⟩ := List.mem_filterMap.mp hasks
  split at heq
  · rename_i name line
    cases heq
    obtain ⟨t, id, hleads, _⟩ := hpasses _ hstop
    rw [leadsTo_behind_deepRoot graph.found.known entry hdirectory hpackage] at hleads
    cases hleads
  · cases heq

/-- A project may have a bundle under one root and none under another, where a path that is
looked up is too long. -/
theorem deepRoot_differs :
    let p := ["short"]
    let q := deepRoot
    let config : Config := { dependencyDirs := [] }
    let fs := laidOut p dottedTree
    let fs' := laidOut q dottedTree
    ¬p <+: q ∧ ¬q <+: p ∧ fs.HasProperPlace ∧ fs'.HasProperPlace ∧ SameTree fs fs' p q ∧
      (targetAt p).Moved p q (targetAt q) ∧ (targetAt p).StaysInside fs p config ∧
      ¬MovedOutcome p q (Bundle.Moved p q) ((targetAt p).bundle fs config)
        ((targetAt q).bundle fs' config) := by
  intro p q config fs fs'
  have hp : IsLayable p := by decide
  have hq : IsLayable q := isLayable_deepRoot
  have hinside : (targetAt p).StaysInside fs p config :=
    staysInside_laidOut (by decide +kernel) (by decide) (by simp [config])
  have hbundle : ((targetAt p).bundle fs config).toOption.isSome = true := by decide +kernel
  have hdiffers : ¬p <+: q := by
    intro hstarts
    have hname : "short" = longName 254 :=
      (List.mem_replicate.mp (hstarts.subset List.mem_cons_self)).2
    have hlength := length_longName 254
    rw [← hname] at hlength
    cases hlength
  refine ⟨hdiffers, ?_, hasProperPlace_laidOut hp _, hasProperPlace_laidOut hq _,
    sameTree_laidOut hp hq _, target_moved hp hq, hinside, ?_⟩
  · intro hstarts
    have hlength := hstarts.length_le
    simp [q, p, deepRoot] at hlength
  · intro hmoved
    rcases hmoved.cases with ⟨e, _, hfail, _⟩ | ⟨_, bundle', _, hdone, _⟩
    · rw [hfail] at hbundle
      cases hbundle
    · exact deepRoot_fails bundle' hdone

end LuaBundle
