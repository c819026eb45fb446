import LuaBundle.Command.Program
import LuaBundle.Proofs.Settings.Layers

/-!
# The effective configuration

A run takes every part of its configuration from the first source that gives it: a flag, the
manifest, the file that the command line names, the environment, and the files of the
project, the user and the system.  Only the directories of these three files are joined.
-/

namespace LuaBundle

/-!
## Settings files

A file holds a layer when its text is a settings document; an optional file may also be
missing.
-/

def HoldsLayer (fs : FileSystem) (file : Path) (layer : Layer) : Prop :=
  ∃ text, fs.readText file = .ok (some text) ∧ Layer.ofDocument? text = some layer

/-- A file holds a layer, or is absent and gives nothing. -/
inductive MayHoldLayer (fs : FileSystem) : Option Path → Layer → Prop where
  | absent {file} (h : file.filter fs.isFile = none) : MayHoldLayer fs file {}
  | present {file layer} (h : fs.isFile file = true) (hlayer : HoldsLayer fs file layer) :
      MayHoldLayer fs (some file) layer

structure FileLayers where
  named : Layer
  project : Layer
  user : Layer
  system : Layer

/-- The layers that the settings files on a machine give.  All files that are there are valid,
and so is the one that the command line names if it names one. -/
structure Machine.Holds (machine : Machine) (named : Option Path) (layers : FileLayers) :
    Prop where
  named : match named with
    | none => layers.named = {}
    | some file => HoldsLayer machine.files file layers.named
  project : MayHoldLayer machine.files (some ⟨"luapack.toml"⟩) layers.project
  user : MayHoldLayer machine.files (machine.userDirectory?.map settingsBelow) layers.user
  system : MayHoldLayer machine.files
    ((machine.systemDirectories.map settingsBelow).find? machine.files.isFile) layers.system

/-!
## Effective values
-/

/-- A configuration whose parts are the first ones given. -/
structure Config.IsEffective (config : Config) (machine : Machine) (command : Command)
    (target : Target) (layers : FileLayers) : Prop where
  minify : config.minify = firstGiven
    [if command.spread then some false else none,
      (target.manifest.bind Manifest.build).bind BuildOptions.minify,
      layers.named.minify,
      (machine.valueOf? "LUAPACK_MINIFY").bind truth?,
      layers.project.minify, layers.user.minify, layers.system.minify] true
  metadata : config.metadata = firstGiven
    [if command.metadata then some true else none,
      (target.manifest.bind Manifest.build).bind BuildOptions.metadata,
      layers.named.metadata,
      (machine.valueOf? "LUAPACK_METADATA").bind truth?,
      layers.project.metadata, layers.user.metadata, layers.system.metadata] false
  /-- The value of the variable counts without blanks around it and points in front, if
  anything is left. -/
  extension : config.extension = firstGiven
    [layers.named.extension,
      (((machine.valueOf? "LUAPACK_EXTENSION").map fun value =>
        (Text.trim value.toList).dropWhile (· == '.')).filter (· ≠ [])).map String.ofList,
      layers.project.extension, layers.user.extension, layers.system.extension] "lua"
  /-- The value of the variable counts if any directory stands between its commas. -/
  dependencyDirs : config.dependencyDirs = firstGiven
    [layers.named.dependencyDirs,
      (((machine.valueOf? "LUAPACK_DEPENDENCY_DIRS").map fun value =>
        ((Text.split ',' value.toList).map Text.trim).filter (· ≠ [])).filter (· ≠ [])).map
          fun items => items.map fun item => ⟨String.ofList item⟩,
      joinedLists ([layers.project, layers.user, layers.system].filterMap
        Layer.dependencyDirs)] [⟨"node_modules"⟩]

theorem extension_eq (value : Option String) :
    value.bind extension? = ((value.map fun value =>
      (Text.trim value.toList).dropWhile (· == '.')).filter (· ≠ [])).map String.ofList := by
  cases value with
  | none => rfl
  | some value =>
      rw [Option.bind_some, Option.map_some, extension?]
      cases (Text.trim value.toList).dropWhile (· == '.') <;> rfl

theorem directories_eq (value : Option String) :
    value.bind directories? = ((value.map fun value =>
      ((Text.split ',' value.toList).map Text.trim).filter (· ≠ [])).filter (· ≠ [])).map
        fun items => items.map fun item => (⟨String.ofList item⟩ : Path) := by
  cases value with
  | none => rfl
  | some value =>
      have hempty : (fun item : List Char => !item.isEmpty) = fun item => decide (item ≠ []) := by
        funext item
        cases item <;> rfl
      rw [Option.bind_some, Option.map_some, directories?, hempty]
      cases ((Text.split ',' value.toList).map Text.trim).filter (· ≠ []) <;> rfl

/-!
## Loading
-/

section Loading

variable {machine : Machine} {layers : FileLayers}

theorem load_of_holds {fs : FileSystem} {file : Path} {layer : Layer}
    (h : HoldsLayer fs file layer) (owner : Owner) : loadOwned fs owner file = .ok layer := by
  rcases h with ⟨text, hread, hdocument⟩
  simp only [loadOwned, Layer.load, hread, hdocument]
  rfl

theorem empty_merge (layer : Layer) : Layer.merge {} layer = layer := by
  cases layer
  rfl

theorem addLayer_of_mayHold {fs : FileSystem} {file : Option Path} {layer : Layer}
    (h : MayHoldLayer fs file layer) (owner : Owner) (below : Layer) :
    addLayer fs owner file below = .ok (layer.merge below) := by
  unfold addLayer
  cases h with
  | absent h => rw [h, empty_merge]
  | present h hlayer =>
      rw [Option.filter_some, if_pos h]
      simp only [load_of_holds hlayer owner]
      rfl

theorem config_of_holds {named : Option Path} (h : machine.Holds named layers) :
    machine.config named = .ok (layers.named.applyTo (machine.layer.applyTo
      ((mergedLayers [layers.project, layers.user, layers.system]).applyTo {}))) := by
  have hsystem : addLayer machine.files .system machine.systemSettings? {} =
      .ok (mergedLayers [layers.system]) :=
    addLayer_of_mayHold h.system .system {}
  have huser : addLayer machine.files .user machine.userSettings? (mergedLayers [layers.system]) =
      .ok (mergedLayers [layers.user, layers.system]) :=
    addLayer_of_mayHold h.user .user _
  have hproject : addLayer machine.files .project (some settingsName)
      (mergedLayers [layers.user, layers.system]) =
      .ok (mergedLayers [layers.project, layers.user, layers.system]) :=
    addLayer_of_mayHold h.project .project _
  have hnamed := h.named
  simp only [Machine.config, hsystem, huser, hproject, bind, Except.bind]
  cases named with
  | none =>
      rw [hnamed]
      rfl
  | some file =>
      simp only [load_of_holds hnamed .commandLine]
      rfl

theorem target_applyTo (target : Target) (config : Config) :
    target.applyTo config = { config with
      minify := ((target.manifest.bind Manifest.build).bind BuildOptions.minify).getD config.minify
      metadata :=
        ((target.manifest.bind Manifest.build).bind BuildOptions.metadata).getD
          config.metadata } := by
  unfold Target.applyTo
  cases target.manifest with
  | none => rfl
  | some manifest =>
      rcases manifest with ⟨name, version, directory, build⟩
      cases build <;> rfl

/-- The configuration that is loaded, with the options of a manifest and flags on top. -/
theorem isEffective_apply (machine : Machine) (command : Command) (target : Target)
    (layers : FileLayers) :
    (command.applyTo (target.applyTo (layers.named.applyTo (machine.layer.applyTo
      ((mergedLayers [layers.project, layers.user, layers.system]).applyTo {}))))).IsEffective
      machine command target layers where
  minify := by
    have hfiles := merged_first Layer.minify rfl (fun _ _ => rfl)
      [layers.project, layers.user, layers.system] true
    rw [target_applyTo]
    simp only [Command.applyTo, Layer.applyTo, hfiles, List.map_cons, List.map_nil,
      firstGiven_cons]
    cases command.spread with
    | true => exact Bool.and_false _
    | false => exact Bool.and_true _
  metadata := by
    have hfiles := merged_first Layer.metadata rfl (fun _ _ => rfl)
      [layers.project, layers.user, layers.system] false
    rw [target_applyTo]
    simp only [Command.applyTo, Layer.applyTo, hfiles, List.map_cons, List.map_nil,
      firstGiven_cons]
    cases command.metadata with
    | true => exact Bool.or_true _
    | false => exact Bool.or_false _
  extension := by
    have hfiles := merged_first Layer.extension rfl (fun _ _ => rfl)
      [layers.project, layers.user, layers.system] "lua"
    rw [target_applyTo, ← extension_eq]
    simp only [Command.applyTo, Layer.applyTo, hfiles, List.map_cons, List.map_nil,
      firstGiven_cons]
    rfl
  dependencyDirs := by
    have hfiles := merged_dependencyDirs [layers.project, layers.user, layers.system]
    rw [target_applyTo, ← directories_eq, ← hfiles]
    simp only [Command.applyTo, Layer.applyTo, firstGiven_cons]
    rfl

end Loading

/-- A run makes its bundle with the effective configuration, whichever sources are there. -/
theorem run_effective {machine : Machine} {words : List String} {command : Command}
    {target : Target} {layers : FileLayers} (hwords : Command.ofWords words = .ok command)
    (hlayers : machine.Holds command.config layers)
    (htarget : Target.ofSource machine.files command.source = .ok target) :
    ∃ config, config.IsEffective machine command target layers ∧
      machine.run words = command.deliver machine.files config target := by
  have hconfig := config_of_holds hlayers
  have heffective := isEffective_apply machine command target layers
  refine ⟨_, heffective, ?_⟩
  simp only [Machine.run, hwords, Machine.perform, hconfig, htarget]

def textFile (text : String) : Entry :=
  .file (Text.utf8 text.toList)

theorem holdsLayer_of_textFile {fs : FileSystem} {file : Path} {text : String} {layer : Layer}
    (hread : fs.read file = .ok (Text.utf8 text.toList))
    (htext : Text.ofUtf8? (Text.utf8 text.toList) = some text.toList)
    (hdocument : Layer.ofDocument? text.toList = some layer) : HoldsLayer fs file layer := by
  have hreadText : fs.readText file = .ok (some text.toList) := by
    rw [FileSystem.readText, hread, Except.map, htext]
  exact ⟨text.toList, hreadText, hdocument⟩

/-- A machine with settings of the system, the user and the project, a file to be named, and a
project with a manifest. -/
def layeredMachine : Machine where
  files := {
    entries := [
      (["etc"], .directory),
      (["etc", "luapack"], .directory),
      (["etc", "luapack", "luapack.toml"],
        textFile "minify = false\ndependency-dirs = [\"vendor\", \"lib\"]"),
      (["own"], .directory),
      (["own", "luapack"], .directory),
      (["own", "luapack", "luapack.toml"],
        textFile "metadata = true\ndependency-dirs = [\"lib\", \"own\"]"),
      (["luapack.toml"], textFile "dependency-dirs = [\"lua_modules\", \"vendor\"]"),
      (["named.toml"], textFile "extension = \"luau\""),
      (["app"], .directory),
      (["app", "package.json"],
        textFile "\x7b\"luapack\":\x7b\"main\":\"main.luau\",\"metadata\":false\x7d\x7d"),
      (["app", "main.luau"], textFile "return 1")] }
  environment :=
    [("XDG_CONFIG_HOME", "/own"), ("LUAPACK_MINIFY", "maybe"), ("LUAPACK_EXTENSION", ".lua")]

def layeredFiles : FileLayers where
  named := { extension := some "luau" }
  project := { dependencyDirs := some [⟨"lua_modules"⟩, ⟨"vendor"⟩] }
  user := { metadata := some true, dependencyDirs := some [⟨"lib"⟩, ⟨"own"⟩] }
  system := { minify := some false, dependencyDirs := some [⟨"vendor"⟩, ⟨"lib"⟩] }

theorem layeredMachine_holds : layeredMachine.Holds (some ⟨"named.toml"⟩) layeredFiles where
  named := holdsLayer_of_textFile rfl (by decide +kernel) rfl
  project := by
    apply MayHoldLayer.present
    case h => decide
    case hlayer => exact holdsLayer_of_textFile rfl (by decide) rfl
  user := by
    apply MayHoldLayer.present
    case h => decide
    case hlayer => exact holdsLayer_of_textFile rfl (by decide) rfl
  system := by
    have hplaces : layeredMachine.systemDirectories.map settingsBelow =
        [⟨"/etc/xdg/luapack/luapack.toml"⟩, ⟨"/etc/luapack/luapack.toml"⟩] := rfl
    have hmissing : layeredMachine.files.isFile ⟨"/etc/xdg/luapack/luapack.toml"⟩ = false := by
      decide
    have hfile : layeredMachine.files.isFile ⟨"/etc/luapack/luapack.toml"⟩ = true := by
      decide
    rw [hplaces, List.find?_cons, hmissing, List.find?_cons, hfile]
    apply MayHoldLayer.present hfile
    exact holdsLayer_of_textFile rfl (by decide) rfl

def layeredWords : List String :=
  ["--config", "named.toml", "--stdout", "app"]

theorem layeredMachine_effective :
    ∃ command target config, Command.ofWords layeredWords = .ok command ∧
      layeredMachine.Holds command.config layeredFiles ∧
      Target.ofSource layeredMachine.files command.source = .ok target ∧
      config.IsEffective layeredMachine command target layeredFiles ∧
      layeredMachine.run layeredWords = command.deliver layeredMachine.files config target := by
  have hwords : Command.ofWords layeredWords =
      .ok ⟨⟨"app"⟩, .screen, some ⟨"named.toml"⟩, false, false⟩ := rfl
  have htarget : ((Target.ofSource layeredMachine.files ⟨"app"⟩).toOption.isSome) = true := by
    decide +kernel
  cases hsource : Target.ofSource layeredMachine.files ⟨"app"⟩ with
  | error e =>
      rw [hsource] at htarget
      cases htarget
  | ok target =>
      rcases run_effective hwords layeredMachine_holds hsource with ⟨config, hconfig, hrun⟩
      exact ⟨_, target, config, hwords, layeredMachine_holds, hsource, hconfig, hrun⟩

end LuaBundle
