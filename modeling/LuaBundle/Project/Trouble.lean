import LuaBundle.FileSystem
import LuaBundle.Lua.Chunk

/-!
# Why there is no bundle

Every cause names the file it concerns.
-/

namespace LuaBundle

inductive BundleError where
  | configuration (file : Path) (message : String)
  /-- The text of a manifest is no manifest. -/
  | invalidManifest (file : Path)
  | unresolved (module : String) (requester : Path)
  | unsupportedRequire (file : Path) (line : Nat)
  | entryRequired (file : Path) (line : Nat) (module : String)
  | reservedName (file : Path) (name : String)
  | unparsable (file : Path) (cause : Lua.ParseError)
  | unreadable (file : Path)
  | unwritable (file : Path)
deriving Repr

/-- The wording of a report.  The wording of a syntax error is left out; its line is
given. -/
def BundleError.message : BundleError → String
  | .configuration file message => message ++ " (" ++ file.spelling ++ ")"
  | .invalidManifest _ => "invalid manifest"
  | .unresolved module requester =>
      "cannot resolve module '" ++ module ++ "' required from " ++ requester.spelling
  | .unsupportedRequire file line =>
      file.spelling ++ ":" ++ toString line
        ++ ": require expects a single string literal argument"
  | .entryRequired file line module =>
      file.spelling ++ ":" ++ toString line ++ ": module '" ++ module
        ++ "' resolves to the entry script, which cannot be required"
  | .reservedName file name =>
      file.spelling ++ ": identifier '" ++ name ++ "' uses the reserved `__luapack_` prefix"
  | .unparsable file (.malformed line) =>
      "failed to parse " ++ file.spelling ++ ": [" ++ toString line ++ "]"
  | .unparsable file (.faulty fault) =>
      "failed to parse " ++ file.spelling ++ ": " ++ fault.message
  | .unreadable file => "failed to read " ++ file.spelling
  | .unwritable file => "failed to write " ++ file.spelling

def canonical (fs : FileSystem) (p : Path) : Except BundleError Path :=
  (fs.canonicalize p).mapError fun _ => .unreadable p

end LuaBundle
