import LuaBundle.FileSystem
import LuaBundle.Settings.Config
import LuaBundle.Text.Characters

/-!
# Machines

Where the program runs: the files, and the environment variables.  Some variables give
settings.
-/

namespace LuaBundle

structure Machine where
  files : FileSystem
  environment : List (String × String) := []
deriving Repr

def Machine.valueOf? (machine : Machine) (name : String) : Option String :=
  machine.environment.lookup name

/-!
## Values of variables

A value that has no meaning counts as absent.
-/

def truth? (value : String) : Option Bool :=
  match String.ofList ((Text.trim value.toList).map Char.toLower) with
  | "true" | "1" | "yes" | "on" => some true
  | "false" | "0" | "no" | "off" => some false
  | _ => none

def extension? (value : String) : Option String :=
  match (Text.trim value.toList).dropWhile (· == '.') with
  | [] => none
  | extension => some (String.ofList extension)

/-- Directories with commas between them and blanks around them; empty ones do not count. -/
def directories? (value : String) : Option (List Path) :=
  match ((Text.split ',' value.toList).map Text.trim).filter (!·.isEmpty) with
  | [] => none
  | items => some (items.map fun item => ⟨String.ofList item⟩)

def Machine.layer (machine : Machine) : Layer where
  minify := (machine.valueOf? "LUAPACK_MINIFY").bind truth?
  metadata := (machine.valueOf? "LUAPACK_METADATA").bind truth?
  extension := (machine.valueOf? "LUAPACK_EXTENSION").bind extension?
  dependencyDirs := (machine.valueOf? "LUAPACK_DEPENDENCY_DIRS").bind directories?

end LuaBundle
