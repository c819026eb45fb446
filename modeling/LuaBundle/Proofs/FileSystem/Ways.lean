import LuaBundle.FileSystem

/-!
# Ways

A path that leads somewhere is a way: a row of turns from directory to directory, which goes on
elsewhere at every link.  What one turn keeps is kept by a whole way.
-/

namespace LuaBundle
namespace FileSystem

variable {fs : FileSystem} {creates : Bool} {place next : Place} {s : String}
  {rest segments : List String} {links : Nat} {a b : Standing}

/-!
## Turns

All that a segment can lead to from a directory.
-/

inductive Turns (fs : FileSystem) (creates : Bool) (place : Place) : String → Turn → Prop where
  | stay {s : String} (h : s = "" ∨ s = ".") : Turns fs creates place s (.place place)
  | up : Turns fs creates place ".." (.place place.dropLast)
  | down {s : String} (hblank : ¬(s = "" ∨ s = ".")) (hparent : s ≠ "..")
      (hshort : ¬maxName < s.utf8ByteSize) (hlink : fs.link? (place ++ [s]) = none)
      (hthere : (creates || (fs.entry? (place ++ [s])).isSome) = true) :
      Turns fs creates place s (.place (place ++ [s]))
  | link {s : String} {target : Path} (hblank : ¬(s = "" ∨ s = ".")) (hparent : s ≠ "..")
      (hshort : ¬maxName < s.utf8ByteSize) (hlink : fs.link? (place ++ [s]) = some target) :
      Turns fs creates place s (.link target)

theorem turn_directory {t : Turn} (h : fs.turn creates place s = .ok t) :
    fs.entry? place = some .directory := by
  unfold turn at h
  split at h
  · cases h
  · cases h
  · assumption

theorem turns_of_turn {t : Turn} (h : fs.turn creates place s = .ok t) :
    Turns fs creates place s t := by
  unfold turn at h
  rw [turn_directory h] at h
  simp only at h
  split at h
  · rename_i hblank
    cases h
    exact .stay hblank
  · rename_i hblank
    split at h
    · rename_i hparent
      cases h
      rw [hparent]
      exact .up
    · rename_i hparent
      split at h
      · cases h
      · rename_i hshort
        split at h
        · rename_i hlink
          cases h
          exact .link hblank hparent hshort hlink
        · rename_i hlink
          split at h
          · rename_i hthere
            cases h
            exact .down hblank hparent hshort hlink hthere
          · cases h

theorem turn_of_turns {t : Turn} (hdirectory : fs.entry? place = some .directory)
    (h : Turns fs creates place s t) : fs.turn creates place s = .ok t := by
  unfold turn
  rw [hdirectory]
  cases h with
  | stay h => simp only [if_pos h]
  | up => simp
  | down hblank hparent hshort hlink hthere =>
      simp only [if_neg hblank, if_neg hparent, if_neg hshort, hlink, if_pos hthere]
  | link hblank hparent hshort hlink =>
      simp only [if_neg hblank, if_neg hparent, if_neg hshort, hlink]

/-- From what is no directory every segment leads nowhere, for the same reason. -/
theorem turn_error (h : fs.entry? place ≠ some .directory) :
    ∃ e, ∀ creates s, fs.turn creates place s = .error e := by
  cases hentry : fs.entry? place with
  | none => exact ⟨.missing, fun creates s => by simp only [turn, hentry]⟩
  | some entry =>
      cases entry with
      | file content => exact ⟨.notDirectory, fun creates s => by simp only [turn, hentry]⟩
      | directory => exact absurd hentry h

/-!
## Following step by step
-/

theorem follow_nil (fs : FileSystem) (creates : Bool) (a : Standing) :
    fs.follow creates a [] = .ok a := by
  rcases a with ⟨place, links⟩
  cases links <;> rfl

theorem follow_of_error {e : Trouble} (h : fs.turn (creates && rest.isEmpty) place s = .error e) :
    fs.follow creates ⟨place, links⟩ (s :: rest) = .error e := by
  cases links <;> simp only [follow, followIn, followTo, h]

theorem follow_of_place
    (h : fs.turn (creates && rest.isEmpty) place s = .ok (.place next)) :
    fs.follow creates ⟨place, links⟩ (s :: rest) = fs.follow creates ⟨next, links⟩ rest := by
  cases links <;> simp only [follow, followIn, followTo, h]

theorem follow_of_last_link {target : Path}
    (h : fs.turn (creates && rest.isEmpty) place s = .ok (.link target)) :
    fs.follow creates ⟨place, 0⟩ (s :: rest) = .error .manyLinks := by
  simp only [follow, followIn, followTo, h]

theorem follow_of_link {target : Path}
    (h : fs.turn (creates && rest.isEmpty) place s = .ok (.link target)) :
    fs.follow creates ⟨place, links + 1⟩ (s :: rest) =
      (checkSpelling target).bind fun _ =>
        fs.follow creates ⟨startIn place target, links⟩ (target.segments ++ rest) := by
  simp only [follow, followIn, followTo, h]
  rfl

/-- Segments are followed one by one, and behind a link there is one link less to follow. -/
theorem follow_induction {motive : Nat → List String → Prop} (nil : ∀ links, motive links [])
    (cons : ∀ links s rest, motive links rest →
      (∀ fewer, links = fewer + 1 → ∀ segments, motive fewer segments) →
      motive links (s :: rest)) (links : Nat) (segments : List String) :
    motive links segments := by
  induction links generalizing segments with
  | zero =>
      induction segments with
      | nil => exact nil 0
      | cons s rest ih => exact cons 0 s rest ih nofun
  | succ links ihLinks =>
      induction segments with
      | nil => exact nil _
      | cons s rest ih =>
          refine cons _ s rest ih fun fewer hfewer => ?_
          cases hfewer
          exact ihLinks

theorem follow_append (a : Standing) (front back : List String) :
    fs.follow false a (front ++ back) =
      (fs.follow false a front).bind fun b => fs.follow false b back := by
  rcases a with ⟨place, links⟩
  induction links, front using follow_induction generalizing place with
  | nil links =>
      rw [follow_nil]
      rfl
  | cons links s rest ih ihLinks =>
      rw [List.cons_append]
      cases hturn : fs.turn false place s with
      | error e =>
          rw [follow_of_error hturn, follow_of_error hturn]
          rfl
      | ok t =>
          cases t with
          | place next => rw [follow_of_place hturn, follow_of_place hturn, ih]
          | link target =>
              cases links with
              | zero =>
                  rw [follow_of_last_link hturn, follow_of_last_link hturn]
                  rfl
              | succ fewer =>
                  rw [follow_of_link hturn, follow_of_link hturn]
                  cases checkSpelling target with
                  | error e => rfl
                  | ok u =>
                      have hmore := ihLinks fewer rfl (target.segments ++ rest)
                        (startIn place target)
                      rwa [List.append_assoc] at hmore

theorem follow_cons (a : Standing) (s : String) (rest : List String) :
    fs.follow false a (s :: rest) =
      (fs.follow false a [s]).bind fun b => fs.follow false b rest :=
  follow_append a [s] rest

/-!
## Ways
-/

inductive Way (fs : FileSystem) (creates : Bool) : Standing → List String → Standing → Prop where
  | here {a : Standing} : Way fs creates a [] a
  | step {place next : Place} {links : Nat} {s : String} {rest : List String} {b : Standing}
      (hturn : fs.turn (creates && rest.isEmpty) place s = .ok (.place next))
      (hmore : Way fs creates ⟨next, links⟩ rest b) :
      Way fs creates ⟨place, links⟩ (s :: rest) b
  | jump {place : Place} {links : Nat} {s : String} {rest : List String} {target : Path}
      {b : Standing}
      (hturn : fs.turn (creates && rest.isEmpty) place s = .ok (.link target))
      (hspelling : checkSpelling target = .ok ())
      (hmore : Way fs creates ⟨startIn place target, links⟩ (target.segments ++ rest) b) :
      Way fs creates ⟨place, links + 1⟩ (s :: rest) b

theorem Way.follow (h : Way fs creates a segments b) : fs.follow creates a segments = .ok b := by
  induction h with
  | here => exact follow_nil fs creates _
  | step hturn _ ih => rw [follow_of_place hturn, ih]
  | jump hturn hspelling _ ih =>
      rw [follow_of_link hturn, hspelling]
      exact ih

theorem way_of_follow (h : fs.follow creates a segments = .ok b) :
    Way fs creates a segments b := by
  rcases a with ⟨place, links⟩
  induction links, segments using follow_induction generalizing place with
  | nil links =>
      rw [follow_nil, Except.ok.injEq] at h
      subst h
      exact .here
  | cons links s rest ih ihLinks =>
      cases hturn : fs.turn (creates && rest.isEmpty) place s with
      | error e =>
          rw [follow_of_error hturn] at h
          cases h
      | ok t =>
          cases t with
          | place next =>
              rw [follow_of_place hturn] at h
              exact .step hturn (ih next h)
          | link target =>
              cases links with
              | zero =>
                  rw [follow_of_last_link hturn] at h
                  cases h
              | succ fewer =>
                  rw [follow_of_link hturn] at h
                  cases hspelling : checkSpelling target with
                  | error e =>
                      rw [hspelling] at h
                      cases h
                  | ok u =>
                      rw [hspelling] at h
                      exact .jump hturn hspelling (ihLinks fewer rfl _ _ h)

theorem follow_cons_ok (h : fs.follow creates a (s :: rest) = .ok b) :
    fs.entry? a.place = some .directory := by
  cases way_of_follow h with
  | step hturn _ => exact turn_directory hturn
  | jump hturn _ _ => exact turn_directory hturn

theorem way_of_lead {p : Path} (h : fs.lead creates p = .ok place) :
    checkSpelling p = .ok () ∧ ∃ links, Way fs creates (fs.start p) p.segments ⟨place, links⟩ := by
  rw [lead] at h
  cases hspelling : checkSpelling p with
  | error e =>
      rw [hspelling] at h
      cases h
  | ok u =>
      rw [hspelling] at h
      cases hfollow : fs.follow creates (fs.start p) p.segments with
      | error e =>
          simp only [hfollow, bind, Except.bind] at h
          cases h
      | ok b =>
          simp only [hfollow, bind, Except.bind] at h
          cases h
          exact ⟨rfl, b.links, way_of_follow hfollow⟩

theorem Way.lead {p : Path} (hspelling : checkSpelling p = .ok ())
    (h : Way fs creates (fs.start p) p.segments b) : fs.lead creates p = .ok b.place := by
  rw [FileSystem.lead, hspelling]
  simp only [h.follow, bind, Except.bind]
  rfl

/-!
## Real places

A place is real if there is no link among the places above it, itself included.  Every way
from a real place leads to a real one.
-/

def IsReal (fs : FileSystem) (place : Place) : Prop :=
  ∀ front, front <+: place → fs.link? front = none

theorem isReal_root (fs : FileSystem) : fs.IsReal [] := by
  intro front hfront
  rw [List.prefix_nil.mp hfront]
  rfl

theorem link_of_no_links (h : fs.links = []) (place : Place) : fs.link? place = none := by
  cases place with
  | nil => rfl
  | cons name rest => simp [link?, h]

theorem isReal_of_no_links (h : fs.links = []) (place : Place) : fs.IsReal place :=
  fun front _ => link_of_no_links h front

theorem IsReal.of_prefix {above : Place} (h : fs.IsReal place) (habove : above <+: place) :
    fs.IsReal above :=
  fun front hfront => h front (hfront.trans habove)

theorem IsReal.startIn (h : fs.IsReal place) (p : Path) : fs.IsReal (startIn place p) := by
  unfold FileSystem.startIn
  split
  · exact isReal_root fs
  · exact h

theorem IsReal.turn (h : fs.IsReal place) (hturn : fs.turn creates place s = .ok (.place next)) :
    fs.IsReal next := by
  cases turns_of_turn hturn with
  | stay _ => exact h
  | up => exact h.of_prefix (List.dropLast_prefix place)
  | down _ _ _ hlink _ =>
      intro front hfront
      rcases List.prefix_concat_iff.mp hfront with rfl | habove
      · exact hlink
      · exact h front habove

theorem Way.isReal (h : Way fs creates a segments b) (ha : fs.IsReal a.place) :
    fs.IsReal b.place := by
  induction h with
  | here => exact ha
  | step hturn _ ih => exact ih (ha.turn hturn)
  | jump _ _ _ ih => exact ih (ha.startIn _)

end FileSystem
end LuaBundle
