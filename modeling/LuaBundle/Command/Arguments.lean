import LuaBundle.Path

/-!
# Arguments

What the words of a command line ask for.  Words are read from left to right.  A flag is
given at most once; short flags may be joined in one word, and what follows a flag with a
value in that word is its value.  After `--` every word is a source.
-/

namespace LuaBundle

/-!
## Flags

A switch stands by itself, and a setting has a value.
-/

inductive Switch where
  | stdout
  | debug
  | spread
  | metadata
  | version
  | help
deriving DecidableEq, Repr

inductive Setting where
  | output
  | config
deriving DecidableEq, Repr

inductive Flag where
  | switch (s : Switch)
  | setting (s : Setting)
deriving DecidableEq, Repr

def Flag.ofLong? : String → Option Flag
  | "stdout" => some (.switch .stdout)
  | "debug" => some (.switch .debug)
  | "no-minify" => some (.switch .spread)
  | "metadata" => some (.switch .metadata)
  | "version" => some (.switch .version)
  | "help" => some (.switch .help)
  | "output" => some (.setting .output)
  | "config" => some (.setting .config)
  | _ => none

def Flag.ofShort? : Char → Option Flag
  | 'd' => some (.switch .debug)
  | 'm' => some (.switch .metadata)
  | 'V' => some (.switch .version)
  | 'h' => some (.switch .help)
  | 'o' => some (.setting .output)
  | 'c' => some (.setting .config)
  | _ => none

/-!
## What has been asked for

The reading stops at a flag or a source that is given twice or is empty, and at a question for
the version or the usage.
-/

structure Request where
  switches : List Switch := []
  settings : List (Setting × Path) := []
  source : Option Path := none
deriving Repr

inductive Stop where
  /-- The version is asked for. -/
  | version
  /-- The usage is asked for. -/
  | help
  /-- The words make no sense. -/
  | misuse
deriving DecidableEq, Repr

def Request.turnOn (r : Request) : Switch → Except Stop Request
  | .version => .error .version
  | .help => .error .help
  | s => if s ∈ r.switches then .error .misuse else .ok { r with switches := s :: r.switches }

def Request.set (r : Request) (s : Setting) (value : List Char) : Except Stop Request :=
  if value.isEmpty ∨ (r.settings.lookup s).isSome then .error .misuse
  else .ok { r with settings := (s, ⟨String.ofList value⟩) :: r.settings }

def Request.setSource (r : Request) (word : List Char) : Except Stop Request :=
  if word.isEmpty ∨ r.source.isSome then .error .misuse
  else .ok { r with source := some ⟨String.ofList word⟩ }

/-!
## Reading words

A value is attached to its flag or is the next word, so a word may leave a flag behind that
still waits for one.
-/

/-- A word is read into a request and, if it ends in a flag whose value is still to come,
that flag. -/
abbrev Reading :=
  Except Stop (Request × Option Setting)

/-- What stands behind the name of a short flag without the `=` that may be in front. -/
def attachedValue : List Char → List Char
  | '=' :: value => value
  | value => value

def Request.readShort (r : Request) : List Char → Reading
  | [] => .ok (r, none)
  | c :: rest =>
      match Flag.ofShort? c with
      | none => .error .misuse
      | some (.switch s) => do (← r.turnOn s).readShort rest
      | some (.setting s) =>
          if rest.isEmpty then .ok (r, some s)
          else do return (← r.set s (attachedValue rest), none)

def Request.readLong (r : Request) (word : List Char) : Reading :=
  let (name, after) := word.span (· != '=')
  match Flag.ofLong? (String.ofList name), after with
  | some (.switch s), [] => do return (← r.turnOn s, none)
  | some (.setting s), [] => .ok (r, some s)
  | some (.setting s), _ :: value => do return (← r.set s value, none)
  | _, _ => .error .misuse

def Request.readWord (r : Request) : List Char → Reading
  | '-' :: '-' :: name => r.readLong name
  | '-' :: c :: names => r.readShort (c :: names)
  | word => do return (← r.setSource word, none)

def isValue : List Char → Bool
  | ['-'] => true
  | '-' :: _ => false
  | _ => true

def Request.readWords (r : Request) : Option Setting → List (List Char) → Except Stop Request
  | none, [] => .ok r
  | some _, [] => .error .misuse
  | some s, word :: rest =>
      if isValue word then do (← r.set s word).readWords none rest else .error .misuse
  | none, word :: rest =>
      if word = ['-', '-'] then rest.foldlM Request.setSource r
      else do
        let (r, waiting) ← r.readWord word
        r.readWords waiting rest

/-!
## Commands

A bundle goes to the screen, to a file, or where the manifest says.
-/

inductive Destination where
  | screen
  | file (p : Path)
  /-- The output that the manifest declares. -/
  | declared
deriving Repr

structure Command where
  source : Path
  destination : Destination
  /-- A settings file. -/
  config : Option Path
  /-- Print spread out, whatever the configuration says. -/
  spread : Bool
  /-- Put a comment in front, whatever the configuration says. -/
  metadata : Bool
deriving Repr

/-- The command of a request that names a source and at most one destination. -/
def Request.command? (r : Request) : Option Command := do
  let source ← r.source
  let destination ←
    match r.settings.lookup .output, decide (.stdout ∈ r.switches) with
    | none, true => some Destination.screen
    | some p, false => some (Destination.file p)
    | none, false => some Destination.declared
    | some _, true => none
  return {
    source
    destination
    config := r.settings.lookup .config
    spread := .spread ∈ r.switches
    metadata := .metadata ∈ r.switches }

def Command.ofWords (words : List String) : Except Stop Command := do
  let request ← Request.readWords {} none (words.map String.toList)
  match request.command? with
  | some command => return command
  | none => throw .misuse

end LuaBundle
