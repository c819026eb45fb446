import LuaBundle.Merge
import LuaBundle.Path

/-!
# Who requires whom

The scripts of a project in the order in which they were added, and an edge from a script to
each script it requires, with the line of the first call.
-/

namespace LuaBundle

structure GraphNode where
  path : Path
  id : Option Nat
deriving Repr

/-- An edge between the scripts at two positions. -/
structure GraphEdge where
  source : Nat
  target : Nat
  line : Nat
deriving DecidableEq, Repr

/-- Scripts and edges, in the order in which they were added. -/
structure RequireGraph where
  nodes : List GraphNode := []
  edges : List GraphEdge := []
deriving Repr

namespace RequireGraph

/-!
## Adding

A script stands in the graph once, and so does an edge: what is there already is found, not
added.
-/

def index? (g : RequireGraph) (p : Path) : Option Nat :=
  g.nodes.findIdx? fun node => node.path == p

def addModule (g : RequireGraph) (p : Path) (id : Option Nat) : Nat × RequireGraph :=
  match g.index? p with
  | some i => (i, g)
  | none => (g.nodes.length, { g with nodes := g.nodes ++ [⟨p, id⟩] })

def hasEdge (g : RequireGraph) (source target : Nat) : Bool :=
  g.edges.any fun e => e.source == source && e.target == target

def addRequire (g : RequireGraph) (source target : Path) (line : Nat) : RequireGraph :=
  match g.index? source, g.index? target with
  | some i, some j =>
      if g.hasEdge i j then g else { g with edges := g.edges ++ [⟨i, j, line⟩] }
  | _, _ => g

/-!
## Questions
-/

def targets (g : RequireGraph) (i : Nat) : List Nat :=
  (g.edges.filter fun e => e.source == i).map (·.target)

def path? (g : RequireGraph) (i : Nat) : Option Path :=
  (g.nodes[i]?).map (·.path)

def requiresOf (g : RequireGraph) (p : Path) : List Path :=
  match g.index? p with
  | none => []
  | some i => (g.targets i).filterMap g.path?

/-!
## Cycles

A script lies on a cycle when edges lead from it back to it.  The scripts on a cycle fall
into classes that reach each other.
-/

def visit (g : RequireGraph) : Nat → List Nat → List Nat → List Nat
  | 0, _, seen => seen
  | _, [], seen => seen
  | fuel + 1, i :: rest, seen =>
      if seen.contains i then g.visit fuel rest seen
      else g.visit fuel (g.targets i ++ rest) (i :: seen)

def after (g : RequireGraph) (i : Nat) : List Nat :=
  g.visit (2 * g.edges.length + 1) (g.targets i) []

def classOf (g : RequireGraph) (i : Nat) : List Nat :=
  (g.after i).filter fun j => (g.after j).contains i

/-- The classes of scripts on cycles, each sorted, in the order of their first scripts. -/
def cycles (g : RequireGraph) : List (List Path) :=
  let classes := (List.range g.nodes.length).map fun i =>
    (List.range g.nodes.length).filter (g.classOf i).contains
  let sorted := (addNew [] (classes.filter (!·.isEmpty))).map fun members =>
    (members.filterMap g.path?).mergeSort Path.le
  sorted.mergeSort fun a b =>
    Path.listLe Path.listComponentLe (a.map Path.components) (b.map Path.components)

end RequireGraph
end LuaBundle
