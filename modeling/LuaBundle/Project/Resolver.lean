import LuaBundle.Project.Manifest

/-!
# Finding modules

A module name is a path with points for slashes.  The script of that name is looked for in
the directory of the requester, in that of the entry, in the main directory of the package
that the requester belongs to, and last as a package of that name in the directories with
packages.  What has been learnt about a directory is kept for later searches.
-/

namespace LuaBundle

/-!
## Scripts and packages

What a script finds beside itself or beside the main script of its package belongs to its
package; what it finds beside the entry belongs to none.
-/

/-- A package with a manifest that declares an entry script. -/
structure Package where
  name : String
  manifest : Manifest
  main : Path
  mainDir : Path
deriving Repr

structure Location where
  path : Path
  directory : Path
  package : Option Package := none
deriving Repr

def directoryOf (script : Path) : Path :=
  script.parent?.getD ⟨""⟩

def Location.ofPath (fs : FileSystem) (p : Path) (package : Option Package) :
    Except BundleError Location := do
  let path ← canonical fs p
  return ⟨path, directoryOf path, package⟩

/-- The package of a directory, if its manifest declares an entry script that is there. -/
def Package.read (fs : FileSystem) (name : String) (directory : Path) :
    Except BundleError (Option Package) := do
  match ← Manifest.read fs directory with
  | none => return none
  | some manifest =>
      match manifest.main?.filter fs.isFile with
      | none => return none
      | some main =>
          let main ← canonical fs main
          return some ⟨name, manifest, main, directoryOf main⟩

/-!
## Searches

A directory is asked for its manifest once, and the answer is kept for later searches.
-/

/-- What a search depends on besides the requester. -/
structure Resolver where
  extension : String
  entryDir : Path
  dependencyRoots : List Path
deriving Repr

def Resolver.of (config : Config) (entry : Location) (projectRoot : Path) : Resolver where
  extension := config.extension
  entryDir := entry.directory
  dependencyRoots := config.dependencyDirs.map projectRoot.join

abbrev Known := List (Path × Option Package)

abbrev Search := ExceptT BundleError (StateM Known)

def relativeName (module : String) : String :=
  String.ofList (module.toList.map fun c => if c = '.' then '/' else c)

def Resolver.scriptName (resolver : Resolver) (module : String) : Path :=
  ⟨relativeName module ++ "." ++ resolver.extension⟩

/-- The paths that a script may have, each with the package it then belongs to. -/
def Resolver.candidates (resolver : Resolver) (requester : Location) (module : String) :
    List (Path × Option Package) :=
  let script := resolver.scriptName module
  [(requester.directory.join script, requester.package), (resolver.entryDir.join script, none)]
    ++ (requester.package.map fun p => (p.mainDir.join script, some p)).toList

def firstScript (fs : FileSystem) (candidates : List (Path × Option Package)) :
    Except BundleError (Option Location) :=
  match candidates.find? fun c => fs.isFile c.1 with
  | none => .ok none
  | some (p, package) => (Location.ofPath fs p package).map some

def knownPackage (fs : FileSystem) (name : String) (directory : Path) :
    Search (Option Package) := do
  match (← get).lookup directory with
  | some package => return package
  | none =>
      let package ← (Package.read fs name directory : Except BundleError (Option Package))
      modify fun known => known ++ [(directory, package)]
      return package

def firstPackage (fs : FileSystem) (name : String) : List Path → Search (Option Package)
  | [] => return none
  | root :: roots => do
      match ← knownPackage fs name (root.join ⟨relativeName name⟩) with
      | some package => return some package
      | none => firstPackage fs name roots

def Resolver.resolve (resolver : Resolver) (fs : FileSystem) (requester : Location)
    (module : String) : Search (Option Location) := do
  match ← (firstScript fs (resolver.candidates requester module) :
      Except BundleError (Option Location)) with
  | some script => return some script
  | none =>
      match ← firstPackage fs module resolver.dependencyRoots with
      | none => return none
      | some package =>
          return some (← (Location.ofPath fs package.main (some package) :
            Except BundleError Location))

end LuaBundle
