import LuaBundle.Settings.Machine

/-!
# Places of settings files

The settings file of the user lies in their configuration directory, and that of the system
is the first one found in a list of directories.
-/

namespace LuaBundle

def appDir : Path :=
  ⟨"luapack"⟩

def settingsName : Path :=
  ⟨"luapack.toml"⟩

def settingsBelow (directory : Path) : Path :=
  (directory.join appDir).join settingsName

/-- The configuration directory of the user: a given one if it is absolute, and else one
below the home directory. -/
def Machine.userDirectory? (machine : Machine) : Option Path :=
  let given := (machine.valueOf? "XDG_CONFIG_HOME").map Path.mk
  match given.filter Path.isAbsolute with
  | some directory => some directory
  | none => (machine.valueOf? "HOME").map fun home => Path.join ⟨home⟩ ⟨".config/"⟩

def Machine.userSettings? (machine : Machine) : Option Path :=
  machine.userDirectory?.map settingsBelow

/-- The directories that may hold settings of the system: those of a variable, if it is not
empty, and a fixed one last. -/
def Machine.systemDirectories (machine : Machine) : List Path :=
  let listed := ((machine.valueOf? "XDG_CONFIG_DIRS").filter (!·.isEmpty)).getD "/etc/xdg"
  let given := (Text.split ':' listed.toList).filter (!·.isEmpty)
  given.map (fun directory => ⟨String.ofList directory⟩) ++ [⟨"/etc"⟩]

def Machine.systemSettings? (machine : Machine) : Option Path :=
  (machine.systemDirectories.map settingsBelow).find? machine.files.isFile

end LuaBundle
