import LuaBundle.Settings.Places
import LuaBundle.Toml

/-!
# Loading the configuration

From the lowest layer to the highest: the defaults, the files of the system, of the user and
of the working directory, the environment variables, and a file named on the command line.
The directories of the three files are joined; elsewhere a higher layer replaces a lower
one.
-/

namespace LuaBundle

/-!
## Settings documents

Every key of a document is known, stands at most once, and has a value of its type.
-/

def Layer.set? (layer : Layer) (key : List Char) (value : Toml.Value) : Option Layer :=
  match String.ofList key, value with
  | "minify", .boolean b =>
      if layer.minify.isSome then none else some { layer with minify := some b }
  | "metadata", .boolean b =>
      if layer.metadata.isSome then none else some { layer with metadata := some b }
  | "extension", .string s =>
      if layer.extension.isSome then none
      else some { layer with extension := some (String.ofList s) }
  | "dependency-dirs", .strings items =>
      if layer.dependencyDirs.isSome then none
      else some { layer with dependencyDirs := some (items.map fun s => ⟨String.ofList s⟩) }
  | _, _ => none

def Layer.ofDocument? (text : List Char) : Option Layer :=
  (Toml.read? text).bind (·.foldlM (fun layer (key, value) => layer.set? key value) {})

/-!
## Reports

A report names whose settings could not be loaded, the file, and the cause.
-/

/-- Why a settings file gives no layer. -/
inductive LayerError where
  | unreadable (file : Path)
  | invalid (file : Path)
deriving Repr

def LayerError.message : LayerError → String
  | .unreadable file => "Failed to read config file: " ++ file.quoted
  | .invalid file => "Failed to parse config file: " ++ file.quoted

inductive Owner where
  | system
  | user
  | project
  | commandLine
deriving DecidableEq, Repr

def Owner.word : Owner → String
  | .system => "system config"
  | .user => "user config"
  | .project => "project config"
  | .commandLine => "CLI config"

structure ConfigError where
  owner : Owner
  file : Path
  cause : LayerError
deriving Repr

def ConfigError.messages (e : ConfigError) : List String :=
  ["Failed to load " ++ e.owner.word ++ " from " ++ e.file.quoted, e.cause.message]

/-!
## Layers

A file that is not there adds nothing, unless the command line names it.
-/

def Layer.load (fs : FileSystem) (file : Path) : Except LayerError Layer :=
  match fs.readText file with
  | .ok (some text) =>
      match Layer.ofDocument? text with
      | some layer => .ok layer
      | none => .error (.invalid file)
  | .ok none => .error (.unreadable file)
  | .error _ => .error (.unreadable file)

def loadOwned (fs : FileSystem) (owner : Owner) (file : Path) : Except ConfigError Layer :=
  (Layer.load fs file).mapError fun cause => ⟨owner, file, cause⟩

def addLayer (fs : FileSystem) (owner : Owner) (file : Option Path) (below : Layer) :
    Except ConfigError Layer :=
  match file.filter fs.isFile with
  | none => .ok below
  | some file => (loadOwned fs owner file).map (·.merge below)

def Machine.config (machine : Machine) (named : Option Path) : Except ConfigError Config := do
  let fs := machine.files
  let layer ← addLayer fs .system machine.systemSettings? {}
  let layer ← addLayer fs .user machine.userSettings? layer
  let layer ← addLayer fs .project (some settingsName) layer
  let config := machine.layer.applyTo (layer.applyTo {})
  match named with
  | none => return config
  | some file => return (← loadOwned fs .commandLine file).applyTo config

end LuaBundle
