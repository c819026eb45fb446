import LuaBundle.Bundle.Assembly
import LuaBundle.Bundle.RequireGraph
import LuaBundle.Lua.Walk
import LuaBundle.Project.Resolver

/-!
# Discovering modules

The scripts that can be reached from an entry by calls of `require` with a literal name.
Each script is read once.  A module is numbered at the first call that leads to it, before
its own calls are followed, so modules may require each other.  In the tree of a script the
calls are replaced by calls of the loader with the number of the module.
-/

namespace LuaBundle

open Lua

/-!
## Calls

A single string literal names a module; a call with any other arguments is unsupported.
-/

def isRequire : Expr → Bool
  | .name n => n.text == "require"
  | _ => false

def moduleName (literal : StringLit) : String :=
  literal.value .bytes

inductive RequireCall where
  | module (name : String) (line : Nat)
  /-- The arguments are not a single literal. -/
  | unsupported (line : Nat)
deriving DecidableEq, Repr

def requireCall? : Expr → Option RequireCall
  | .call base arguments _ line =>
      if isRequire base then
        match arguments with
        | .list [.string literal] => some (.module (moduleName literal) line)
        | .string literal => some (.module (moduleName literal) line)
        | _ => some (.unsupported line)
      else none
  | _ => none

/-- The call that loads a module, in parentheses if the call it replaces was. -/
def replacement (e : Expr) (id : Nat) : Expr :=
  if e.inParens then (loadCall id).parenthesized else loadCall id

/-!
## The state of a discovery

A discovery keeps what the searches have learnt, the numbers of modules, their trees, and the
edges between scripts.  A step fails at the first fault that it finds.
-/

structure Discovery where
  known : Known := []
  table : ModuleTable := []
  trees : ModuleTrees := []
  requires : RequireGraph := {}
  /-- The scripts in the order in which they were read. -/
  parsed : List Path := []

abbrev Discover := StateT Discovery (Except BundleError)

def fault (e : BundleError) : Discover α :=
  fun _ => .error e

structure Explorer where
  files : FileSystem
  resolver : Resolver
  entry : Location

def Explorer.find (x : Explorer) (requester : Location) (module : String) :
    Discover Location := fun d =>
  match x.resolver.resolve x.files requester module d.known with
  | (.ok (some script), known) => .ok (script, { d with known })
  | (.ok none, _) => .error (.unresolved module requester.path)
  | (.error e, _) => .error e

def Discovery.connect (d : Discovery) (requester target : Path) (line : Nat) : Discovery :=
  { d with requires := d.requires.addRequire requester target line }

def Discovery.number (d : Discovery) (p : Path) : Nat × Discovery :=
  let id := d.table.length + 1
  (id, { d with
    table := d.table ++ [(p, id)]
    requires := (d.requires.addModule p (some id)).2 })

/-!
## Scripts

A walk over the tree of a script replaces each call in reading order.  What a call is the first
to reach is explored before the walk goes on.
-/

def Explorer.parse (x : Explorer) (script : Location) : Except BundleError Chunk :=
  match x.files.read script.path with
  | .error _ => .error (.unreadable script.path)
  | .ok bytes => (parseBytes bytes).mapError fun e => .unparsable script.path e

/-- The number of the module that a call asks for.  A new module is explored by
`explore`. -/
def Explorer.require (x : Explorer) (explore : Location → Discover Chunk)
    (requester : Location) (module : String) (line : Nat) : Discover Nat := do
  let script ← x.find requester module
  if script.path == x.entry.path then
    fault (.entryRequired requester.path line module)
  else
    match (← get).table.lookup script.path with
    | some id =>
        modify (·.connect requester.path script.path line)
        return id
    | none =>
        let id ← modifyGet (·.number script.path)
        modify (·.connect requester.path script.path line)
        let tree ← explore script
        modify fun d => { d with trees := d.trees.insert id tree }
        return id

def Explorer.visitor (x : Explorer) (explore : Location → Discover Chunk)
    (script : Location) : Visitor Discover where
  block _ := return ()
  statement _ := return ()
  expression e :=
    match requireCall? e with
    | none => return none
    | some (.unsupported line) => fault (.unsupportedRequire script.path line)
    | some (.module name line) => do
        let id ← x.require explore script name line
        return some (replacement e id)
  name n :=
    if reservedStart.toList.isPrefixOf n.text.toList then
      fault (.reservedName script.path n.text)
    else
      return n

/-- Explores a script and the modules that it is the first to reach, nested at most `depth`
deep, and gives its tree with the calls replaced. -/
def Explorer.explore (x : Explorer) : Nat → Location → Discover Chunk
  | 0, script => fault (.unreadable script.path)
  | depth + 1, script => do
      match x.parse script with
      | .error e => fault e
      | .ok chunk =>
          modify fun d => { d with parsed := d.parsed ++ [script.path] }
          let body ← walkBlock (x.visitor (x.explore depth) script) chunk.body
          return { chunk with body }

/-!
## Projects
-/

structure ModuleGraph where
  entry : Location
  main : Chunk
  found : Discovery

/-- Every nested exploration is of another file, so their number bounds the depth. -/
def Explorer.depth (x : Explorer) : Nat :=
  x.files.entries.length + 1

def Explorer.graph (x : Explorer) : Except BundleError ModuleGraph := do
  let start : Discovery := { requires := (RequireGraph.addModule {} x.entry.path none).2 }
  let (main, found) ← x.explore x.depth x.entry start
  return ⟨x.entry, main, found⟩

end LuaBundle
