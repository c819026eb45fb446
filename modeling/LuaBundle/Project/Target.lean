import LuaBundle.Project.Manifest

/-!
# Targets

What is to be bundled: a script, or a directory whose manifest declares one.
-/

namespace LuaBundle

/-- An entry script, and the directory that packages are looked for in. -/
structure Target where
  entry : Path
  projectRoot : Path
  manifest : Option Manifest
deriving Repr

def Target.ofDirectory (fs : FileSystem) (directory : Path) : Except BundleError Target := do
  match ← Manifest.read fs directory with
  | none =>
      throw (.configuration (directory.join manifestName) "project manifest not found")
  | some manifest =>
      if manifest.build.isNone then
        throw (.configuration manifest.file "manifest has no `luapack` section")
      match manifest.main? with
      | none => throw (.configuration manifest.file "`luapack.main` is missing")
      | some main =>
          if fs.isFile main then
            return ⟨← canonical fs main, directory, some manifest⟩
          else
            throw (.configuration main
              "entry script declared by `luapack.main` does not exist")

def Target.ofSource (fs : FileSystem) (source : Path) : Except BundleError Target := do
  if !fs.exists? source then
    throw (.configuration source "source path does not exist")
  else if fs.isFile source then
    return ⟨← canonical fs source, fs.workingDirectory, none⟩
  else
    Target.ofDirectory fs (← canonical fs source)

def Target.output? (target : Target) : Option Path :=
  target.manifest.bind Manifest.output?

/-- A configuration with the options of the manifest in place of what it had. -/
def Target.applyTo (target : Target) (config : Config) : Config :=
  match target.manifest with
  | none => config
  | some manifest => manifest.applyTo config

end LuaBundle
