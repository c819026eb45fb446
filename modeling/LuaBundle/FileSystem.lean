import LuaBundle.Path
import LuaBundle.Text.Utf8

/-!
# File systems

A finite file system: files and directories under a root, symbolic links, and the directory
that relative paths start from.  A path is followed segment by segment; every segment must
start from a directory, so a slash after a file leads nowhere.  Where a name is that of a
link, the way goes on along what the link spells.
-/

namespace LuaBundle

open Text

inductive Entry where
  | file (content : Bytes)
  | directory
deriving DecidableEq, Repr

abbrev Place := List String

/-- Of two entries for one place the first counts, and a link counts before them. -/
structure FileSystem where
  entries : List (Place × Entry)
  links : List (Place × Path) := []
  here : Place := []
deriving Repr

namespace FileSystem

/-!
## Places

The root is a directory and no link.
-/

def entry? (fs : FileSystem) (place : Place) : Option Entry :=
  match place with
  | [] => some .directory
  | _ :: _ => fs.entries.lookup place

def link? (fs : FileSystem) (place : Place) : Option Path :=
  match place with
  | [] => none
  | _ :: _ => fs.links.lookup place

inductive Trouble where
  | missing
  | notDirectory
  | isDirectory
  | alreadyThere
  | manyLinks
  /-- A name or the path is too long, or the path holds a NUL character. -/
  | badName
deriving DecidableEq, Repr

/-!
## Limits

The largest number of bytes of a name, the number of bytes that a path stays below, and the
largest number of links on the way along one path.
-/

def maxName : Nat :=
  255

def maxPath : Nat :=
  4096

def maxLinks : Nat :=
  40

def checkSpelling (p : Path) : Except Trouble Unit :=
  if p.spelling.toList.contains '\x00' then .error .badName
  else if p.spelling = "" then .error .missing
  else if maxPath ≤ p.spelling.utf8ByteSize then .error .badName
  else .ok ()

/-!
## Following a path

One segment leads to a place or to a link.  The segments behind a link are followed from
where the link leads, as long as links may be followed.  A path for a new file may lead to a
name that is not there, in a directory that is.
-/

/-- What a segment leads to. -/
inductive Turn where
  | place (place : Place)
  | link (target : Path)

def turn (fs : FileSystem) (creates : Bool) (place : Place) (segment : String) :
    Except Trouble Turn :=
  match fs.entry? place with
  | none => .error .missing
  | some (.file _) => .error .notDirectory
  | some .directory =>
      if segment = "" ∨ segment = "." then .ok (.place place)
      else if segment = ".." then .ok (.place place.dropLast)
      else if maxName < segment.utf8ByteSize then .error .badName
      else
        match fs.link? (place ++ [segment]) with
        | some target => .ok (.link target)
        | none =>
            if creates || (fs.entry? (place ++ [segment])).isSome then
              .ok (.place (place ++ [segment]))
            else .error .missing

/-- How far a path has been followed, and how many more links may be. -/
structure Standing where
  place : Place
  links : Nat
deriving DecidableEq, Repr

def startIn (directory : Place) (p : Path) : Place :=
  if p.isAbsolute then [] else directory

/-- Follows segments up to a link.  What comes then is left to `jump`: it is given the
directory of the link, what the link spells, and the segments behind it. -/
def followTo (fs : FileSystem) (creates : Bool)
    (jump : Place → Path → List String → Except Trouble Standing) (links : Nat)
    (place : Place) : List String → Except Trouble Standing
  | [] => .ok ⟨place, links⟩
  | s :: rest =>
      match fs.turn (creates && rest.isEmpty) place s with
      | .error e => .error e
      | .ok (.place next) => fs.followTo creates jump links next rest
      | .ok (.link target) => jump place target rest

def followIn (fs : FileSystem) (creates : Bool) :
    Nat → Place → List String → Except Trouble Standing
  | 0 => fs.followTo creates (fun _ _ _ => .error .manyLinks) 0
  | links + 1 =>
      fs.followTo creates
        (fun place target rest => do
          checkSpelling target
          fs.followIn creates links (startIn place target) (target.segments ++ rest))
        (links + 1)

def follow (fs : FileSystem) (creates : Bool) (standing : Standing) (segments : List String) :
    Except Trouble Standing :=
  fs.followIn creates standing.links standing.place segments

def start (fs : FileSystem) (p : Path) : Standing :=
  ⟨startIn fs.here p, maxLinks⟩

def lead (fs : FileSystem) (creates : Bool) (p : Path) : Except Trouble Place := do
  checkSpelling p
  return (← fs.follow creates (fs.start p) p.segments).place

def locate (fs : FileSystem) (p : Path) : Except Trouble Place :=
  fs.lead false p

/-!
## Questions

A question about a path that leads nowhere is answered with no, and reading tells why.
-/

def find? (fs : FileSystem) (p : Path) : Option Entry :=
  match fs.locate p with
  | .ok place => fs.entry? place
  | .error _ => none

def isFile (fs : FileSystem) (p : Path) : Bool :=
  match fs.find? p with
  | some (.file _) => true
  | _ => false

def isDirectory (fs : FileSystem) (p : Path) : Bool :=
  match fs.find? p with
  | some .directory => true
  | _ => false

def exists? (fs : FileSystem) (p : Path) : Bool :=
  (fs.find? p).isSome

def canonicalize (fs : FileSystem) (p : Path) : Except Trouble Path :=
  (fs.locate p).map Path.ofNames

def workingDirectory (fs : FileSystem) : Path :=
  .ofNames fs.here

def read (fs : FileSystem) (p : Path) : Except Trouble Bytes := do
  let place ← fs.locate p
  match fs.entry? place with
  | some (.file content) => .ok content
  | some .directory => .error .isDirectory
  | none => .error .missing

/-- The text of the file that a path leads to, or nothing if it is not UTF-8. -/
def readText (fs : FileSystem) (p : Path) : Except Trouble (Option (List Char)) :=
  (fs.read p).map ofUtf8?

/-!
## Changes

Something new needs a directory to stand in.  A directory is made only where nothing is, and a
file also where a file is.
-/

def put (fs : FileSystem) (place : Place) (entry : Entry) : FileSystem :=
  { fs with entries := (place, entry) :: fs.entries.filter fun e => e.1 != place }

def withoutEndSlashes (segments : List String) : List String :=
  (segments.reverse.dropWhile (· == "")).reverse

def newPlace (fs : FileSystem) (p : Path) (segments : List String) :
    Except Trouble (Place × String) := do
  checkSpelling p
  let directory := (← fs.follow false (fs.start p) segments.dropLast).place
  match fs.entry? directory, segments.getLast? with
  | some .directory, some name =>
      if maxName < name.utf8ByteSize then .error .badName else .ok (directory, name)
  | some .directory, none => .error .alreadyThere
  | some (.file _), _ => .error .notDirectory
  | none, _ => .error .missing

def makeDirectory (fs : FileSystem) (p : Path) : Except Trouble FileSystem := do
  let (directory, name) ← fs.newPlace p (withoutEndSlashes p.segments)
  if name = "." ∨ name = ".." then .error .alreadyThere
  else if (fs.link? (directory ++ [name])).isSome then .error .alreadyThere
  else if (fs.entry? (directory ++ [name])).isSome then .error .alreadyThere
  else .ok (fs.put (directory ++ [name]) .directory)

/-- Makes a directory and those above it that are missing, going up at most `fuel` times.
The file system is changed also where a directory further down cannot be made. -/
def makeDirectoriesIn : Nat → FileSystem → Path → FileSystem × Option Trouble
  | 0, fs, _ => (fs, some .missing)
  | fuel + 1, fs, p =>
      if p.spelling = "" then (fs, none)
      else
        let again (fs : FileSystem) : FileSystem × Option Trouble :=
          match fs.makeDirectory p with
          | .ok fs => (fs, none)
          | .error e => (fs, if fs.isDirectory p then none else some e)
        match fs.makeDirectory p with
        | .ok fs => (fs, none)
        | .error .missing =>
            match p.parent? with
            | none => (fs, some .missing)
            | some above =>
                match makeDirectoriesIn fuel fs above with
                | (fs, none) => again fs
                | (fs, some e) => (fs, some e)
        | .error e => (fs, if fs.isDirectory p then none else some e)

def makeDirectories (fs : FileSystem) (p : Path) : FileSystem × Option Trouble :=
  makeDirectoriesIn (p.spelling.length + 1) fs p

/-- Writes a file, whose directory must be there.  A link stands for what it leads to. -/
def write (fs : FileSystem) (p : Path) (content : Bytes) : Except Trouble FileSystem := do
  let place ← fs.lead true p
  match fs.entry? place with
  | some .directory => .error .isDirectory
  | _ => .ok (fs.put place (.file content))

end FileSystem
end LuaBundle
