import LuaBundle.Bundle.Bundle
import LuaBundle.Proofs.Bundle.Moved

/-!
# Targets under two roots

The graph of a target is the discovery from the canonical path of its entry.  For two targets
that are the same way from the roots of one tree it is the same, or fails alike.
-/

namespace LuaBundle

open FileSystem Lua

/-!
## Targets

A target is looked up, and a discovery runs from its entry.  Both correspond under two roots.
-/

def Target.explorerFrom (fs : FileSystem) (config : Config) (target : Target) (entry : Location) :
    Explorer :=
  ⟨fs, .of config entry target.projectRoot, entry⟩

def Target.explorer (fs : FileSystem) (config : Config) (target : Target) :
    Except BundleError Explorer :=
  (Location.ofPath fs target.entry none).map (target.explorerFrom fs config)

/-- The paths that bundling a target may look up. -/
inductive Target.LooksUp (fs : FileSystem) (config : Config) (target : Target) : Path → Prop where
  | entry : target.LooksUp fs config target.entry
  | discovery {x path} (h : target.explorer fs config = .ok x) (hpath : x.LooksUp path) :
      target.LooksUp fs config path

/-- Whether two targets are the same way from two roots. -/
structure Target.Moved (p q : Place) (target target' : Target) : Prop where
  entry : Path.Moved p q target.entry target'.entry
  projectRoot : Path.Moved p q target.projectRoot target'.projectRoot

/-- Whether two bundles are the same but for the root below which their scripts lie. -/
structure Bundle.Moved (p q : Place) (bundle bundle' : Bundle) : Prop where
  code : bundle.code = bundle'.code
  moduleCount : bundle.moduleCount = bundle'.moduleCount
  parsed : List.Forall₂ (Path.MovedBelow p q) bundle.parsed bundle'.parsed

/-- What a configuration and the names and manifests of a project are like that does not lead
out of it. -/
structure Target.StaysInside (fs : FileSystem) (p : Place) (config : Config) (target : Target) :
    Prop where
  extension : '/' ∉ config.extension.toList
  dependencyDirs : ∀ directory ∈ config.dependencyDirs, directory.IsInner
  mains : fs.HasInnerMains p
  names : ∀ x, target.explorer fs config = .ok x → ∀ s name, x.Asks s name → IsRelativeName name

section Targets

variable {fs fs' : FileSystem} {p q : Place} {config : Config} {target target' : Target}

theorem graph_eq (fs : FileSystem) (config : Config) (target : Target) :
    target.graph fs config = (target.explorer fs config).bind Explorer.graph := by
  unfold Target.graph Target.explorer
  cases Location.ofPath fs target.entry none <;> rfl

theorem explorer_eq (fs : FileSystem) (config : Config) (target : Target) :
    target.explorer fs config =
      match fs.canonicalize target.entry with
      | .error _ => .error (.unreadable target.entry)
      | .ok path => .ok (target.explorerFrom fs config ⟨path, directoryOf path, none⟩) := by
  unfold Target.explorer Location.ofPath canonical
  cases fs.canonicalize target.entry <;> rfl

theorem files_of_explorer {x : Explorer} (h : target.explorer fs config = .ok x) :
    x.files = fs := by
  rw [explorer_eq] at h
  split at h
  · cases h
  · cases h
    rfl

theorem entry_of_explorer {place : Place} {x : Explorer}
    (hplace : ∀ name ∈ place, IsProper name) (hreal : fs.IsReal place)
    (htarget : target.entry = .ofNames place) (hx : target.explorer fs config = .ok x) :
    ∃ entry, x = target.explorerFrom fs config entry ∧ entry.path = .ofNames place ∧
      entry.directory = directoryOf (.ofNames place) ∧ entry.package = none := by
  rw [explorer_eq, htarget] at hx
  cases hcanonical : fs.canonicalize (.ofNames place) with
  | error e =>
    rw [hcanonical] at hx
    cases hx
  | ok path =>
    rw [hcanonical] at hx
    cases hx
    rw [eq_of_canonicalize hplace hreal hcanonical]
    exact ⟨_, rfl, rfl, rfl, rfl⟩

theorem graph_of_unreadable (x : Explorer) {trouble : Trouble}
    (h : x.files.read x.entry.path = .error trouble) :
    x.graph = .error (.unreadable x.entry.path) := by
  have hparse : x.parse x.entry = .error (.unreadable x.entry.path) := by rw [Explorer.parse, h]
  simp only [Explorer.graph, Explorer.depth, bind, Except.bind, explore_eq, hparse]

structure ModuleGraph.Moved (p q : Place) (graph graph' : ModuleGraph) : Prop where
  main : graph.main = graph'.main
  found : graph.found.Moved p q graph'.found

theorem graph_moved {x x' : Explorer} (hx : x.Moved p q x') :
    MovedOutcome p q (ModuleGraph.Moved p q) x.graph x'.graph := by
  have hstart : Discovery.Moved p q
      { requires := (RequireGraph.addModule {} x.entry.path none).2 }
      { requires := (RequireGraph.addModule {} x'.entry.path none).2 } :=
    ⟨.nil, .nil, rfl, .nil⟩
  have hempty : ∀ (x : Explorer) (requires : RequireGraph),
      ({ requires := requires } : Discovery).walked.Sound x := by
    intro x requires
    constructor
    case known => simp [Known.IsSound, Discovery.walked]
    case files => simp [Discovery.walked]
    case distinct => exact List.Pairwise.nil
  have hexplored := explore_moved hx x.depth x'.depth x.entry x'.entry _ _ hx.entry hstart .entry
    (hempty x _) (Nat.le_refl _) (hempty x' _) (Nat.le_refl _)
  unfold Explorer.graph
  apply hexplored.bind
  rintro ⟨main, found⟩ ⟨main', found'⟩ ⟨hmain, hfound⟩
  exact .ok ⟨hmain, hfound⟩

theorem numberedTrees_congr {table table' : ModuleTable} (trees : ModuleTrees)
    (h : table.map Prod.snd = table'.map Prod.snd) :
    numberedTrees table trees = numberedTrees table' trees := by
  unfold numberedTrees ModuleTable.ids
  rw [h]

theorem ids_moved {table table' : ModuleTable}
    (h : List.Forall₂ (fun e e' => Path.Moved p q e.1 e'.1 ∧ e.2 = e'.2) table table') :
    table.map Prod.snd = table'.map Prod.snd := by
  induction h with
  | nil => rfl
  | cons hentry _ ih => rw [List.map_cons, List.map_cons, hentry.2, ih]

theorem place_of_read {place : Place} {content : Text.Bytes}
    (hplace : ∀ name ∈ place, IsProper name) (hreal : fs.IsReal place)
    (h : fs.read (.ofNames place) = .ok content) : fs.entry? place = some (.file content) := by
  obtain ⟨place', hlocate, hentry⟩ := file_of_read h
  rw [locate_ofNames hplace hreal hlocate] at hentry
  exact hentry

theorem isFile_of_graph (hproper : fs.HasProperPlace) {graph : ModuleGraph}
    (h : target.graph fs config = .ok graph) : fs.isFile target.entry = true := by
  rw [graph_eq, explorer_eq, canonicalize] at h
  cases hlocate : fs.locate target.entry with
  | error e =>
    rw [hlocate] at h
    cases h
  | ok place =>
    rw [hlocate] at h
    cases hread : fs.read (.ofNames place) with
    | error e =>
      have hfails := graph_of_unreadable (target.explorerFrom fs config
        ⟨.ofNames place, directoryOf (.ofNames place), none⟩) hread
      simp only [Except.map, Except.bind, hfails] at h
      cases h
    | ok content =>
      obtain ⟨hplace, hreal⟩ := proper_of_locate hproper hlocate
      have hentry := place_of_read hplace hreal hread
      simp only [FileSystem.isFile, find?, hlocate, hentry]

theorem explorer_of_bundle {bundle : Bundle} (h : target.bundle fs config = .ok bundle) :
    ∃ x graph, target.explorer fs config = .ok x ∧ x.graph = .ok graph := by
  unfold Target.bundle at h
  rw [graph_eq] at h
  cases hexplorer : target.explorer fs config with
  | error e =>
    rw [hexplorer] at h
    cases h
  | ok x =>
    rw [hexplorer] at h
    cases hgraph : x.graph with
    | error e =>
      simp only [Except.bind, hgraph] at h
      cases h
    | ok graph => exact ⟨x, graph, rfl, hgraph⟩

theorem explorer_moved (hproper : fs.HasProperPlace) (hproper' : fs'.HasProperPlace)
    (htree : SameTree fs fs' p q) (htarget : target.Moved p q target')
    (hinside : target.StaysInside fs p config)
    (hfits : ∀ path, target.LooksUp fs config path → path.FitsAlike p q) {entry entry' : Location}
    (hentry : entry.Moved p q entry')
    (hexplorer : target.explorer fs config = .ok (target.explorerFrom fs config entry)) :
    Explorer.Moved p q (target.explorerFrom fs config entry)
      (target'.explorerFrom fs' config entry') := by
  have hroots : List.Forall₂ (Path.Moved p q) (config.dependencyDirs.map target.projectRoot.join)
      (config.dependencyDirs.map target'.projectRoot.join) := by
    rw [List.forall₂_map_left_iff, List.forall₂_map_right_iff, List.forall₂_same]
    intro directory hdirectory
    exact htarget.projectRoot.join (hinside.dependencyDirs directory hdirectory)
  constructor
  case tree => exact htree
  case proper => exact hproper
  case proper' => exact hproper'
  case resolver => exact ⟨rfl, hinside.extension, hentry.directory, hroots⟩
  case entry => exact hentry
  case mains => exact hinside.mains
  case names => exact hinside.names _ hexplorer
  case fits => exact fun path hpath => hfits path (.discovery hexplorer hpath)

theorem target_graph_moved (hproper : fs.HasProperPlace) (hproper' : fs'.HasProperPlace)
    (htree : SameTree fs fs' p q) (htarget : target.Moved p q target')
    (hinside : target.StaysInside fs p config)
    (hfits : ∀ path, target.LooksUp fs config path → path.FitsAlike p q) :
    MovedOutcome p q (ModuleGraph.Moved p q) (target.graph fs config)
      (target'.graph fs' config) := by
  rw [graph_eq, graph_eq]
  rcases htree.canonicalize htarget.entry (hfits _ .entry _ htarget.entry) with
    ⟨e, ha, hb⟩ | ⟨names, hnames, ha, hb⟩
  · rw [explorer_eq, explorer_eq, ha, hb]
    exact .error ⟨htarget.entry, rfl⟩
  · have hexplorer := explorer_eq fs config target
    have hexplorer' := explorer_eq fs' config target'
    rw [ha] at hexplorer
    rw [hb] at hexplorer'
    have hmoved := Path.moved_ofNames htree.root.proper htree.root'.proper htree.root.below
      htree.root'.below hnames
    have hfit := hfits _ (.discovery hexplorer (.script .entry)) _ hmoved
    rw [hexplorer, hexplorer']
    simp only [Except.bind]
    cases hread : fs.read (.ofNames (p ++ names)) with
    | error trouble =>
      have hread' := hread
      rw [htree.read hmoved hfit] at hread'
      have hfails := graph_of_unreadable (target.explorerFrom fs config
        ⟨.ofNames (p ++ names), directoryOf (.ofNames (p ++ names)), none⟩) hread
      have hfails' := graph_of_unreadable (target'.explorerFrom fs' config
        ⟨.ofNames (q ++ names), directoryOf (.ofNames (q ++ names)), none⟩) hread'
      rw [hfails, hfails']
      exact .error ⟨hmoved, rfl⟩
    | ok content =>
      have hfile := place_of_read (List.forall_mem_append.mpr ⟨htree.root.proper, hnames⟩)
        (isReal_below htree.root.real htree.free names) hread
      have hne : names ≠ [] := by
        rintro rfl
        rw [List.append_nil, htree.root.directory] at hfile
        cases hfile
      have hbelow : Path.MovedBelow p q (.ofNames (p ++ names)) (.ofNames (q ++ names)) :=
        ⟨names, hne, hnames, rfl, rfl⟩
      exact graph_moved (explorer_moved hproper hproper' htree htarget hinside hfits
        ⟨hbelow, htree.directory hbelow, .none⟩ hexplorer)

end Targets

end LuaBundle
