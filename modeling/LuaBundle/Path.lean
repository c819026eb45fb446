import LuaBundle.Text.Characters

/-!
# Paths

A path is kept as it is spelled.  Its segments are what stands between slashes; its
components leave out what has no meaning: empty segments, and `.` anywhere but at the start
of a relative path.  Two paths are the same when their components are.
-/

namespace LuaBundle

structure Path where
  spelling : String
deriving Repr, Inhabited

namespace Path

/-!
## Segments and components
-/

def isAbsolute (p : Path) : Bool :=
  p.spelling.toList.head? == some '/'

def segments (p : Path) : List String :=
  let all := (Text.split '/' p.spelling.toList).map String.ofList
  if p.isAbsolute then all.drop 1 else all

/-- A part of a path with a meaning, in the order by which paths are sorted. -/
inductive Component where
  | root
  | current
  | parent
  | normal (name : String)
deriving DecidableEq, Repr

def Component.ofSegment? (starts : Bool) (segment : String) : Option Component :=
  if segment = "" then none
  else if segment = "." then (if starts then some .current else none)
  else if segment = ".." then some .parent
  else some (.normal segment)

/-- The components of segments; `starts` tells whether the first one starts a relative
path. -/
def componentsFrom (starts : Bool) : List String → List Component
  | [] => []
  | s :: rest => (Component.ofSegment? starts s).toList ++ componentsFrom false rest

def components (p : Path) : List Component :=
  if p.isAbsolute then .root :: componentsFrom false p.segments
  else componentsFrom true p.segments

def same (p q : Path) : Bool :=
  p.components == q.components

instance : BEq Path where
  beq := same

/-!
## Order

Paths are ordered as lists of components.
-/

/-- The order of components: the root, `.`, `..`, then names by their characters. -/
def Component.le : Component → Component → Bool
  | .root, _ => true
  | _, .root => false
  | .current, _ => true
  | _, .current => false
  | .parent, _ => true
  | _, .parent => false
  | .normal a, .normal b => a ≤ b

def listLe [DecidableEq α] (le : α → α → Bool) : List α → List α → Bool
  | [], _ => true
  | _ :: _, [] => false
  | a :: as, b :: bs => if a = b then listLe le as bs else le a b

def listComponentLe (a b : List Component) : Bool :=
  listLe Component.le a b

def le (p q : Path) : Bool :=
  listComponentLe p.components q.components

/-!
## Building paths

A relative path is put behind a directory; an absolute one stays what it is.
-/

/-- A path read from the place another names.  An absolute path stays what it is. -/
def join (base p : Path) : Path :=
  if p.isAbsolute then p
  else
    match base.spelling.toList.getLast? with
    | none => p
    | some '/' => ⟨base.spelling ++ p.spelling⟩
    | some _ => ⟨base.spelling ++ "/" ++ p.spelling⟩

def ofNames (names : List String) : Path :=
  ⟨"/" ++ "/".intercalate names⟩

/-- Whether a segment is a component, given whether it starts a relative path. -/
def isMeaningful (starts : Bool) (segment : String) : Bool :=
  (Component.ofSegment? starts segment).isSome

def trimSegments (starts : Bool) : List String → List String
  | [] => []
  | s :: rest =>
      match trimSegments false rest with
      | [] => if isMeaningful starts s then [s] else []
      | more => s :: more

def parent? (p : Path) : Option Path :=
  let starts := !p.isAbsolute
  match trimSegments starts p.segments with
  | [] => none
  | segments =>
      let above := "/".intercalate (trimSegments starts segments.dropLast)
      some ⟨if p.isAbsolute then "/" ++ above else above⟩

def fileName? (p : Path) : Option String :=
  match p.components.getLast? with
  | some (.normal name) => some name
  | _ => none

/-!
## Quoting
-/

/-- A character in quotes.  What would end the quotes or could not be seen is escaped. -/
def quotedChar (c : Char) : List Char :=
  match c with
  | '"' => ['\\', '"']
  | '\\' => ['\\', '\\']
  | '\n' => ['\\', 'n']
  | '\r' => ['\\', 'r']
  | '\t' => ['\\', 't']
  | '\x00' => ['\\', '0']
  | c =>
      if Text.isInvisible c then
        '\\' :: 'u' :: '\x7b' :: Nat.toDigits 16 c.toNat ++ ['\x7d']
      else [c]

def quoted (p : Path) : String :=
  String.ofList ('"' :: p.spelling.toList.flatMap quotedChar ++ ['"'])

end Path
end LuaBundle
