import LuaBundle.Project.Resolver
import LuaBundle.Proofs.FileSystem.Ways

/-!
# Other contents of a file

A file may be given other contents.  Every path then leads where it did before, and what is
read from another place is what was read before.
-/

namespace LuaBundle

open Text

namespace FileSystem

/-- Whether two file systems have files and directories at the same places, and the same
links. -/
structure SameShape (fs fs' : FileSystem) : Prop where
  here : fs.here = fs'.here
  links : fs.links = fs'.links
  entry : ∀ place, (fs.entry? place = none ∧ fs'.entry? place = none) ∨
    (fs.entry? place = some .directory ∧ fs'.entry? place = some .directory) ∨
    ∃ content content', fs.entry? place = some (.file content) ∧
      fs'.entry? place = some (.file content')

section SameShape

variable {fs fs' : FileSystem} (hshape : SameShape fs fs')
include hshape

theorem SameShape.isSome (place : Place) :
    (fs.entry? place).isSome = (fs'.entry? place).isSome := by
  rcases hshape.entry place with ⟨h, h'⟩ | ⟨h, h'⟩ | ⟨_, _, h, h'⟩ <;> simp [h, h']

theorem SameShape.turn (creates : Bool) (place : Place) (s : String) :
    fs.turn creates place s = fs'.turn creates place s := by
  have hlink : fs.link? (place ++ [s]) = fs'.link? (place ++ [s]) := by
    cases place <;> simp only [List.cons_append, List.nil_append, link?, hshape.links]
  unfold FileSystem.turn
  rw [hlink, hshape.isSome]
  rcases hshape.entry place with ⟨h, h'⟩ | ⟨h, h'⟩ | ⟨_, _, h, h'⟩ <;> simp only [h, h']

theorem SameShape.follow (creates : Bool) (a : Standing) (segments : List String) :
    fs.follow creates a segments = fs'.follow creates a segments := by
  rcases a with ⟨place, links⟩
  induction links, segments using follow_induction generalizing place with
  | nil links => rw [follow_nil, follow_nil]
  | cons links s rest ih ihLinks =>
      have hturn := hshape.turn (creates && rest.isEmpty) place s
      cases hfirst : fs.turn (creates && rest.isEmpty) place s with
      | error e => rw [follow_of_error hfirst, follow_of_error (hturn ▸ hfirst)]
      | ok t =>
          cases t with
          | place next => rw [follow_of_place hfirst, follow_of_place (hturn ▸ hfirst), ih]
          | link target =>
              cases links with
              | zero => rw [follow_of_last_link hfirst, follow_of_last_link (hturn ▸ hfirst)]
              | succ fewer =>
                  simp only [follow_of_link hfirst, follow_of_link (hturn ▸ hfirst),
                    ihLinks fewer rfl]

theorem SameShape.locate (p : Path) : fs.locate p = fs'.locate p := by
  simp only [FileSystem.locate, lead, FileSystem.start, hshape.here, hshape.follow]

theorem SameShape.canonicalize (p : Path) : fs.canonicalize p = fs'.canonicalize p := by
  simp only [FileSystem.canonicalize, hshape.locate]

theorem SameShape.isFile (p : Path) : fs.isFile p = fs'.isFile p := by
  unfold FileSystem.isFile FileSystem.find?
  rw [hshape.locate]
  cases fs'.locate p with
  | error e => rfl
  | ok place =>
      rcases hshape.entry place with ⟨h, h'⟩ | ⟨h, h'⟩ | ⟨_, _, h, h'⟩ <;> simp [h, h']

end SameShape

/-!
## A file with other contents
-/

theorem lookup_filter_ne [BEq α] [LawfulBEq α] {a b : α} (pairs : List (α × β)) (h : a ≠ b) :
    (pairs.filter fun pair => pair.1 != b).lookup a = pairs.lookup a := by
  induction pairs with
  | nil => rfl
  | cons pair rest ih =>
      rcases pair with ⟨c, d⟩
      by_cases hc : c = b
      · subst hc
        simp [List.lookup_cons, beq_false_of_ne h, ih]
      · simp [hc, List.lookup_cons, ih]

section Put

variable {fs : FileSystem} {place : Place} {content content' : Bytes}

theorem entry_put_self (h : fs.entry? place = some (.file content)) (entry : Entry) :
    FileSystem.entry? (fs.put place entry) place = some entry := by
  cases place with
  | nil => cases h
  | cons name rest => simp [put, entry?]

theorem entry_put_of_ne {other : Place} (entry : Entry) (h : other ≠ place) :
    FileSystem.entry? (fs.put place entry) other = fs.entry? other := by
  cases other with
  | nil => rfl
  | cons name rest =>
      simp [put, entry?, List.lookup_cons, beq_false_of_ne h, lookup_filter_ne _ h]

theorem sameShape_put (h : fs.entry? place = some (.file content)) (content' : Bytes) :
    SameShape fs (fs.put place (.file content')) where
  here := rfl
  links := rfl
  entry other := by
    by_cases hother : other = place
    · subst hother
      exact Or.inr (Or.inr ⟨content, content', h, entry_put_self h _⟩)
    · rw [entry_put_of_ne _ hother]
      cases hentry : fs.entry? other with
      | none => exact Or.inl ⟨rfl, rfl⟩
      | some entry =>
          cases entry with
          | directory => exact Or.inr (Or.inl ⟨rfl, rfl⟩)
          | file other => exact Or.inr (Or.inr ⟨other, other, rfl, rfl⟩)

theorem read_put_of_ne (h : fs.entry? place = some (.file content)) {p : Path}
    (hp : fs.locate p ≠ .ok place) : (fs.put place (.file content')).read p = fs.read p := by
  have hlocate := (sameShape_put h content').locate p
  unfold read
  rw [← hlocate]
  cases hplace : fs.locate p with
  | error e => rfl
  | ok other =>
      have hne : other ≠ place := by
        rintro rfl
        exact hp hplace
      simp only [bind, Except.bind, entry_put_of_ne _ hne]

theorem read_of_place (h : fs.entry? place = some (.file content)) {p : Path}
    (hp : fs.locate p = .ok place) : fs.read p = .ok content := by
  simp [read, bind, Except.bind, hp, h]

theorem read_put_of_place (h : fs.entry? place = some (.file content)) {p : Path}
    (hp : fs.locate p = .ok place) :
    (fs.put place (.file content')).read p = .ok content' := by
  have hlocate := (sameShape_put h content').locate p
  exact read_of_place (entry_put_self h _) (hlocate ▸ hp)

end Put
end FileSystem
end LuaBundle
