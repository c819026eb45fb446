import LuaBundle.Bundle.Bundle
import LuaBundle.Command.Arguments
import LuaBundle.Settings.Load

/-!
# The program

A run of the program on a machine: the command line is read, the configuration loaded, the
target found and its bundle printed or written.  The manifest goes before the configuration,
and flags go before both.
-/

namespace LuaBundle

/-- What a run of the program leaves behind. -/
structure Outcome where
  exitCode : UInt32 := 0
  stdout : Text.Bytes := []
  stderr : List Char := []
  files : FileSystem

/-!
## Texts
-/

def versionText : String :=
  "luapack " ++ version ++ "\n"

def usageText : String :=
  "Usage: luapack [--output FILE | --stdout] [--config FILE] [--no-minify] [--metadata] "
    ++ "[--debug] SOURCE\n"

def reportText (headline : String) : List Char :=
  ("Error: " ++ headline).toList.takeWhile (· != '\n') ++ ['\n']

def Outcome.failed (files : FileSystem) (headline : String) : Outcome where
  exitCode := 1
  stderr := reportText headline
  files

def Outcome.stopped (files : FileSystem) : Stop → Outcome
  | .version => { stdout := Text.utf8 versionText.toList, files }
  | .help => { stdout := Text.utf8 usageText.toList, files }
  | .misuse => { exitCode := 2, stderr := usageText.toList, files }

/-!
## Running

A run that fails before its output is written changes nothing.
-/

def Command.applyTo (command : Command) (config : Config) : Config :=
  { config with
    minify := config.minify && !command.spread
    metadata := config.metadata || command.metadata }

def Command.noOutput (command : Command) : BundleError :=
  .configuration command.source
    ("no output path; pass --output or --stdout, or set `luapack.output` "
      ++ "in the manifest")

def Outcome.printing (fs : FileSystem) (config : Config) (target : Target) : Outcome :=
  match target.bundle fs config with
  | .ok bundle => { stdout := bundle.code, files := fs }
  | .error e => .failed fs e.message

def Outcome.saving (fs : FileSystem) (config : Config) (target : Target) (output : Path) :
    Outcome :=
  match target.bundleInto fs config output with
  | (fs, .ok _) => { files := fs }
  | (fs, .error failure) => .failed fs failure.headline

def Command.deliver (command : Command) (fs : FileSystem) (config : Config)
    (target : Target) : Outcome :=
  match command.destination with
  | .screen => .printing fs config target
  | .file output => .saving fs config target output
  | .declared =>
      match target.output? with
      | some output => .saving fs config target output
      | none => .failed fs command.noOutput.message

def Machine.perform (machine : Machine) (command : Command) : Outcome :=
  let fs := machine.files
  match machine.config command.config with
  | .error e => .failed fs (e.messages.headD "")
  | .ok config =>
      match Target.ofSource fs command.source with
      | .error e => .failed fs e.message
      | .ok target => command.deliver fs (command.applyTo (target.applyTo config)) target

def Machine.run (machine : Machine) (words : List String) : Outcome :=
  match Command.ofWords words with
  | .error stop => .stopped machine.files stop
  | .ok command => machine.perform command

end LuaBundle
