import LuaBundle.Command.Program

/-!
# The command line

The outer layer of the program.  What a run can reach on the disk is copied into a file
system, the program runs on that, and what it has changed is written back.  Nothing is
decided here.
-/

namespace LuaBundle
namespace Disk

/-!
## Copying

What a run can reach on the disk is copied into a file system.  Symbolic links are copied as
links, together with what they lead to.
-/

/-- What has been copied: directories and files with their content, files without, and links. -/
structure Copy where
  entries : List (Place × Entry) := []
  unread : List (Place × Entry) := []
  links : List (Place × Path) := []

def Copy.files (copy : Copy) (here : Place) : FileSystem :=
  { entries := copy.entries ++ copy.unread, links := copy.links, here }

abbrev Wanted :=
  String → Bool

def placeOf (here : Place) (p : Path) : Place :=
  p.components.foldl
    (fun place component =>
      match component with
      | .root => []
      | .current => place
      | .parent => place.dropLast
      | .normal name => place ++ [name])
    here

/-- The place that the names of another lead to in the end, through all links.  What is not
there at all stands for itself. -/
def realPlace (place : Place) : IO Place := do
  try return placeOf [] ⟨(← IO.FS.realPath (Path.ofNames place).spelling).toString⟩
  catch _ => return place

def isDirectoryAt (place : Place) : IO Bool := do
  try return (← (← IO.FS.realPath (Path.ofNames place).spelling).metadata).type == .dir
  catch _ => return false

/-- Adds what stands at a place that is no link.  The content of a file is left out unless it is
wanted. -/
def copyReal (wanted : Bool) (copy : Copy) (place : Place) : IO Copy := do
  try
    let file ← IO.FS.realPath (Path.ofNames place).spelling
    match (← file.metadata).type with
    | .dir => return { copy with entries := (place, .directory) :: copy.entries }
    | .file =>
        if wanted then
          let entry := Entry.file (← IO.FS.readBinFile file).toList
          return { copy with entries := (place, entry) :: copy.entries }
        else return { copy with unread := (place, .file []) :: copy.unread }
    | _ => return copy
  catch _ => return copy

/-- Adds what a name stands for in a directory that has been copied, and tells where that is in
the end. -/
def copyName (wanted : Wanted) (copy : Copy) (directory : Place) (name : String) :
    IO (Copy × Place) := do
  let place := directory ++ [name]
  let real ← realPlace place
  if real == place then return (← copyReal (wanted name) copy place, place)
  else
    let linked := { copy with links := (place, .ofNames real) :: copy.links }
    let above := ((List.range real.length).map real.take).tail
    let copy ← above.foldlM (copyReal false) linked
    return (← copyReal (wanted name) copy real, real)

/-- Adds what the names of a place lead to, and tells where that is in the end. -/
def copyPath (copy : Copy) (place : Place) : IO (Copy × Place) :=
  place.foldlM (fun (copy, directory) name => copyName (fun _ => true) copy directory name)
    (copy, [])

def namesIn (place : Place) : IO (List String) := do
  try
    let directory ← IO.FS.realPath (Path.ofNames place).spelling
    return (← directory.readDir).toList.map (·.fileName)
  catch _ => return []

/-- Adds what stands below a directory, at most `depth` names deep.  A directory is not entered
again below itself. -/
def copyBelow (wanted : Wanted) : Nat → List Place → Copy → Place → IO Copy
  | 0, _, copy, _ => return copy
  | depth + 1, above, copy, place => do
      if above.contains place then return copy
      let mut copy := copy
      for name in ← namesIn place do
        let (more, part) ← copyName wanted copy place name
        copy := more
        if ← isDirectoryAt part then copy ← copyBelow wanted depth (place :: above) copy part
      return copy

def copyDepth : Nat :=
  24

def copyTree (wanted : Wanted) (copy : Copy) (place : Place) : IO Copy := do
  let (copy, real) ← copyPath copy place
  copyBelow wanted copyDepth [] copy real

def copyPaths (here : Place) (copy : Copy) (paths : List Path) : IO Copy :=
  paths.foldlM (fun copy p => Prod.fst <$> copyPath copy (placeOf here p)) copy

/-!
## Machines

What has to be copied depends on the command: the places of settings, the source, and the
directories in which modules are looked for.
-/

def variableNames : List String :=
  ["HOME", "XDG_CONFIG_HOME", "XDG_CONFIG_DIRS", "LUAPACK_MINIFY", "LUAPACK_METADATA",
    "LUAPACK_EXTENSION", "LUAPACK_DEPENDENCY_DIRS"]

def environment : IO (List (String × String)) := do
  let values ← variableNames.mapM fun name => do return (← IO.getEnv name).map fun v => (name, v)
  return values.filterMap id

def settingsPaths (machine : Machine) (command : Command) : List Path :=
  [settingsName] ++ machine.userSettings?.toList
    ++ machine.systemDirectories.map settingsBelow ++ command.config.toList

def namedPaths (command : Command) : List Path :=
  match command.destination with
  | .file p => [command.source, p]
  | _ => [command.source]

/-- The files that an entry or package may consist of under a configuration. -/
def wantedBy (config : Config) : Wanted := fun name =>
  name == manifestName.spelling || name.endsWith ("." ++ config.extension)

def sourceRoot (here : Place) (source : Path) : IO Path := do
  let place ← realPlace (placeOf here source)
  return .ofNames (if ← isDirectoryAt place then place else place.dropLast)

def searchedPaths (config : Config) (roots : List Path) : List Path :=
  roots ++ roots.flatMap fun root => config.dependencyDirs.map root.join

def workingPlace : IO Place := do
  return placeOf [] ⟨(← IO.currentDir).toString⟩

def machineFor (command : Command) : IO Machine := do
  let here ← workingPlace
  let bare : Machine := { files := { entries := [], here }, environment := ← environment }
  let settings ← copyPaths here {} (settingsPaths bare command)
  let machine := { bare with files := settings.files here }
  match machine.config command.config with
  | .error _ => return machine
  | .ok config =>
      let roots := [machine.files.workingDirectory, ← sourceRoot here command.source]
      let searched := (searchedPaths config roots).map (placeOf here)
      let trees ← searched.foldlM (copyTree (wantedBy config)) settings
      let copy ← copyPaths here trees (namedPaths command)
      return { machine with files := copy.files here }

/-!
## Writing back

Only what a run has added or changed is written to the disk.
-/

def make (place : Place) (entry : Entry) : IO Bool := do
  let spelling := (Path.ofNames place).spelling
  try
    match entry with
    | .directory => IO.FS.createDirAll spelling
    | .file content => IO.FS.writeBinFile spelling ⟨content.toArray⟩
    return true
  catch _ => return false

/-- Makes what a run has added or changed, up to the first path where that fails. -/
def writeBack (before after : FileSystem) : IO (Option Path) := do
  for (place, _) in after.entries.reverse do
    if before.entry? place != after.entry? place then
      if let some entry := after.entry? place then
        if !(← make place entry) then return some (.ofNames place)
  return none

def report (outcome : Outcome) : IO UInt32 := do
  (← IO.getStdout).write ⟨outcome.stdout.toArray⟩
  (← IO.getStderr).putStr (String.ofList outcome.stderr)
  return outcome.exitCode

end Disk

def runOnDisk (words : List String) : IO UInt32 := do
  match Command.ofWords words with
  | .error stop => Disk.report (.stopped { entries := [] } stop)
  | .ok command =>
      let machine ← Disk.machineFor command
      let outcome := machine.run words
      match ← Disk.writeBack machine.files outcome.files with
      | none => Disk.report outcome
      | some p => Disk.report (.failed outcome.files (BundleError.unwritable p).message)

end LuaBundle

def main (words : List String) : IO UInt32 :=
  LuaBundle.runOnDisk words
