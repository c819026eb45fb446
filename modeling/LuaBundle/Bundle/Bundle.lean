import LuaBundle.Bundle.Discovery
import LuaBundle.Lua.Layout
import LuaBundle.Project.Target

/-!
# Bundles

The bundle of a target as bytes, and its output file.
-/

namespace LuaBundle

open Lua

def version : String :=
  "0.3.1"

/-- The bytes of a bundle, and what it is made of. -/
structure Bundle where
  code : Text.Bytes
  moduleCount : Nat
  /-- The scripts in the order in which they were read, the entry first. -/
  parsed : List Path

def metadataComment (entry : Path) (moduleCount : Nat) : String :=
  "-- Bundled by luapack " ++ version ++ " from " ++ entry.fileName?.getD "" ++ " ("
    ++ toString moduleCount ++ " module" ++ (if moduleCount = 1 then "" else "s") ++ ")\n"

def Config.style (config : Config) : Style :=
  if config.minify then .compact else .pretty

def Target.graph (fs : FileSystem) (config : Config) (target : Target) :
    Except BundleError ModuleGraph := do
  let entry ← Location.ofPath fs target.entry none
  Explorer.graph ⟨fs, .of config entry target.projectRoot, entry⟩

def Target.bundle (fs : FileSystem) (config : Config) (target : Target) :
    Except BundleError Bundle := do
  let graph ← target.graph fs config
  let chunk := assemble graph.found.table graph.found.trees graph.main
  let moduleCount := graph.found.table.length
  let comment :=
    if config.metadata then
      Text.utf8 (metadataComment target.entry moduleCount).toList
    else []
  return {
    code := comment ++ Text.toBytes (print config.style chunk.body)
    moduleCount
    parsed := graph.found.parsed }

/-!
## Output files

The directories above an output file are made where they are missing.  A report has a headline
and the cause.
-/

/-- A cause, and what was being done, from the outermost message in. -/
structure Failure where
  cause : BundleError
  context : List String := []

def Failure.headline (failure : Failure) : String :=
  failure.context.headD failure.cause.message

/-- Writes an output file, with the directories above it that are missing.  Directories may
have been made also where writing fails. -/
def writeOutput (fs : FileSystem) (output : Path) (code : Text.Bytes) :
    FileSystem × Option Failure :=
  let above := output.parent?.filter fun p => p.spelling != ""
  let (fs, trouble) :=
    match above with
    | none => (fs, none)
    | some directory => fs.makeDirectories directory
  match trouble with
  | some _ =>
      let quoted := (above.map Path.quoted).getD ""
      (fs, some ⟨.unwritable output, ["Failed to create output directory " ++ quoted]⟩)
  | none =>
      match fs.write output code with
      | .ok fs => (fs, none)
      | .error _ => (fs, some ⟨.unwritable output, []⟩)

def Target.bundleInto (fs : FileSystem) (config : Config) (target : Target) (output : Path) :
    FileSystem × Except Failure Bundle :=
  match target.bundle fs config with
  | .error e => (fs, .error ⟨e, []⟩)
  | .ok bundle =>
      match writeOutput fs output bundle.code with
      | (fs, none) => (fs, .ok bundle)
      | (fs, some failure) => (fs, .error failure)

end LuaBundle
