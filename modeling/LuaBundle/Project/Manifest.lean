import LuaBundle.Json
import LuaBundle.Project.Trouble
import LuaBundle.Settings.Config

/-!
# Manifests

A directory may hold a manifest: a JSON object with a name, a version, and options for
bundling.  A known key stands at most once; its value may be null, which counts as absent.
An object may also be written as an array of the values of all its known keys.
-/

namespace LuaBundle

structure BuildOptions where
  main : Option Path := none
  output : Option Path := none
  minify : Option Bool := none
  metadata : Option Bool := none
deriving Repr

structure Manifest where
  name : Option String
  version : Option String
  directory : Path
  build : Option BuildOptions
deriving Repr

/-!
## Reading the text

Members of an object that are not known are passed over.
-/

def member? (members : List (String × Json.Value)) (key : String) :
    Option (Option Json.Value) :=
  match members.filter fun m => m.1 == key with
  | [] => some none
  | [(_, value)] => some (some value)
  | _ => none

def knownValues? (keys : List String) : Json.Value → Option (List (Option Json.Value))
  | .object members => keys.mapM (member? members)
  | .array items => if items.length = keys.length then some (items.map some) else none
  | _ => none

def optional? (read : Json.Value → Option α) : Option Json.Value → Option (Option α)
  | none => some none
  | some .null => some none
  | some value => (read value).map some

def text? : Json.Value → Option String
  | .string text => text
  | _ => none

def boolean? : Json.Value → Option Bool
  | .boolean value => some value
  | _ => none

def path? (value : Json.Value) : Option Path :=
  (text? value).map Path.mk

def buildOptions? (value : Json.Value) : Option BuildOptions := do
  match ← knownValues? ["main", "output", "minify", "metadata"] value with
  | [main, output, minify, metadata] =>
      return {
        main := ← optional? path? main
        output := ← optional? path? output
        minify := ← optional? boolean? minify
        metadata := ← optional? boolean? metadata }
  | _ => none

def Manifest.ofText? (directory : Path) (text : List Char) : Option Manifest := do
  match ← knownValues? ["name", "version", "luapack"] (← Json.read? text) with
  | [name, version, build] =>
      return {
        name := ← optional? text? name
        version := ← optional? text? version
        directory
        build := ← optional? buildOptions? build }
  | _ => none

/-!
## Manifests of directories

A missing manifest is no error; one that cannot be read or parsed is.
-/

def manifestName : Path :=
  ⟨"package.json"⟩

def Manifest.read (fs : FileSystem) (directory : Path) :
    Except BundleError (Option Manifest) :=
  let file := directory.join manifestName
  match fs.readText file with
  | .error .missing => .ok none
  | .error _ => .error (.unreadable file)
  | .ok none => .error (.unreadable file)
  | .ok (some text) =>
      match Manifest.ofText? directory text with
      | some manifest => .ok (some manifest)
      | none => .error (.invalidManifest file)

def Manifest.file (manifest : Manifest) : Path :=
  manifest.directory.join manifestName

def Manifest.main? (manifest : Manifest) : Option Path := do
  return manifest.directory.join (← (← manifest.build).main)

def Manifest.output? (manifest : Manifest) : Option Path := do
  return manifest.directory.join (← (← manifest.build).output)

def Manifest.applyTo (manifest : Manifest) (config : Config) : Config :=
  match manifest.build with
  | none => config
  | some build =>
      { config with
        minify := build.minify.getD config.minify
        metadata := build.metadata.getD config.metadata }

end LuaBundle
