import LuaBundle.Proofs.FileSystem.Places
import LuaBundle.Proofs.Project.Search

/-!
# Spellings of a path

Two spellings of a path may differ in empty segments and in points.  What is looked up
behind one of them is found behind the other, as long as neither is too long to be looked up
at all.
-/

namespace LuaBundle

open Text

/-!
## Steps

The segments that change the place, in order.  The components of a path tell them.
-/

def isStep (segment : String) : Bool :=
  segment != "" && segment != "."

def Path.Component.step? : Path.Component → Option String
  | .root | .current => none
  | .parent => some ".."
  | .normal name => some name

def Path.steps (p : Path) : List String :=
  p.components.filterMap Path.Component.step?

theorem step_ofSegment (starts : Bool) (segment : String) :
    (Path.Component.ofSegment? starts segment).bind Path.Component.step? =
      if isStep segment then some segment else none := by
  unfold Path.Component.ofSegment? isStep
  by_cases hempty : segment = ""
  · simp [hempty]
  by_cases hpoint : segment = "."
  · cases starts <;> simp [hpoint, Path.Component.step?]
  by_cases hparent : segment = ".."
  · simp [hparent, Path.Component.step?]
  · simp [hempty, hpoint, hparent, Path.Component.step?]

theorem steps_componentsFrom (starts : Bool) (segments : List String) :
    (Path.componentsFrom starts segments).filterMap Path.Component.step? =
      segments.filter isStep := by
  induction segments generalizing starts with
  | nil => rfl
  | cons s rest ih =>
      have hfirst : (Path.Component.ofSegment? starts s).toList.filterMap Path.Component.step? =
          ((Path.Component.ofSegment? starts s).bind Path.Component.step?).toList := by
        cases Path.Component.ofSegment? starts s with
        | none => rfl
        | some c => cases h : c.step? <;> simp [h]
      rw [Path.componentsFrom, List.filterMap_append, ih, hfirst, step_ofSegment]
      cases h : isStep s <;> simp [h]

theorem steps_eq (p : Path) : p.steps = p.segments.filter isStep := by
  rw [Path.steps, Path.components]
  split
  · exact steps_componentsFrom false p.segments
  · exact steps_componentsFrom true p.segments

theorem steps_congr {p q : Path} (h : (p == q) = true) : p.steps = q.steps := by
  rw [Path.steps, Path.beq_iff.mp h]
  rfl

theorem components_of_steps (segments : List String) :
    Path.componentsFrom false segments =
      (segments.filter isStep).map fun s => if s = ".." then .parent else .normal s := by
  induction segments with
  | nil => rfl
  | cons s rest ih =>
      rw [Path.componentsFrom, ih]
      unfold Path.Component.ofSegment? isStep
      by_cases hempty : s = ""
      · simp [hempty]
      by_cases hpoint : s = "."
      · simp [hpoint]
      by_cases hparent : s = ".."
      · simp [hparent]
      · simp [hempty, hpoint, hparent]

theorem same_of_steps {p q : Path} (hp : p.isAbsolute = true) (hq : q.isAbsolute = true)
    (h : p.steps = q.steps) : (p == q) = true := by
  rw [Path.beq_iff, Path.components, if_pos hp, Path.components, if_pos hq, components_of_steps,
    components_of_steps, ← steps_eq, ← steps_eq, h]

theorem root_not_mem (starts : Bool) (segments : List String) :
    Path.Component.root ∉ Path.componentsFrom starts segments := by
  induction segments generalizing starts with
  | nil => exact List.not_mem_nil
  | cons s rest ih =>
      have hfirst : Path.Component.ofSegment? starts s ≠ some .root := by
        unfold Path.Component.ofSegment?
        split
        · nofun
        · split
          · split <;> nofun
          · split <;> nofun
      rw [Path.componentsFrom, List.mem_append, Option.mem_toList]
      exact fun h => h.elim hfirst (ih false)

theorem root_mem_components {p : Path} :
    Path.Component.root ∈ p.components ↔ p.isAbsolute = true := by
  rw [Path.components]
  split
  · rename_i h
    simp [h]
  · rename_i h
    simp [h, root_not_mem]

theorem isAbsolute_congr {p q : Path} (h : (p == q) = true) : p.isAbsolute = q.isAbsolute := by
  rw [Bool.eq_iff_iff, ← root_mem_components, ← root_mem_components, Path.beq_iff.mp h]

/-!
## Segments of spellings
-/

theorem mem_split {separator c : Char} (hc : c ≠ separator) (text : List Char) :
    c ∈ text ↔ ∃ piece ∈ split separator text, c ∈ piece := by
  induction text with
  | nil => simp [split]
  | cons d rest ih =>
      rw [List.mem_cons, ih, split]
      split
      · rename_i hd
        have hne : c ≠ d := hd ▸ hc
        simp [hne]
      · split
        · rename_i hsplit
          simp [hsplit]
        · rename_i first others hsplit
          simp [hsplit, or_assoc]

theorem split_join (separator : Char) (front back : List Char) :
    split separator (front ++ separator :: back) =
      split separator front ++ split separator back := by
  induction front with
  | nil => simp [split]
  | cons c rest ih =>
      rw [List.cons_append, split, split, ih]
      split
      · rfl
      · cases hsplit : split separator rest with
        | nil => exact absurd hsplit (split_ne_nil separator rest)
        | cons first others => rfl

theorem segments_of_absolute {p : Path} {rest : List Char}
    (h : p.spelling.toList = '/' :: rest) :
    p.isAbsolute = true ∧ p.segments = (split '/' rest).map String.ofList := by
  have habsolute : p.isAbsolute = true := by simp [Path.isAbsolute, h]
  exact ⟨habsolute, by simp [Path.segments, habsolute, h, split]⟩

theorem segments_of_relative {p : Path} (h : p.isAbsolute = false) :
    p.segments = (split '/' p.spelling.toList).map String.ofList := by
  simp [Path.segments, h]

theorem spelling_of_absolute {p : Path} (h : p.isAbsolute = true) :
    ∃ rest, p.spelling.toList = '/' :: rest := by
  cases hlist : p.spelling.toList with
  | nil => simp [Path.isAbsolute, hlist] at h
  | cons c rest =>
      have hc : c = '/' := by simpa [Path.isAbsolute, hlist] using h
      exact ⟨rest, by rw [hc]⟩

theorem mem_segments {p : Path} {c : Char} (hc : c ≠ '/') :
    c ∈ p.spelling.toList ↔ ∃ s ∈ p.segments, c ∈ s.toList := by
  have hpieces : ∀ text, (∃ s ∈ (split '/' text).map String.ofList, c ∈ s.toList) ↔ c ∈ text := by
    intro text
    rw [mem_split hc]
    constructor
    · rintro ⟨s, hs, hmem⟩
      rcases List.mem_map.mp hs with ⟨piece, hpiece, rfl⟩
      exact ⟨piece, hpiece, by simpa using hmem⟩
    · rintro ⟨piece, hpiece, hmem⟩
      exact ⟨_, List.mem_map_of_mem hpiece, by simpa using hmem⟩
  cases habsolute : p.isAbsolute with
  | true =>
      rcases spelling_of_absolute habsolute with ⟨rest, hlist⟩
      rw [(segments_of_absolute hlist).2, hpieces, hlist, List.mem_cons]
      simp [hc]
  | false => rw [segments_of_relative habsolute, hpieces]

/-- What stands in a spelling stands in a step, but for slashes and points. -/
theorem mem_steps (p : Path) {c : Char} (hslash : c ≠ '/') (hpoint : c ≠ '.') :
    c ∈ p.spelling.toList ↔ ∃ s ∈ p.steps, c ∈ s.toList := by
  rw [mem_segments hslash, steps_eq]
  constructor
  · rintro ⟨s, hs, hc⟩
    refine ⟨s, List.mem_filter.mpr ⟨hs, ?_⟩, hc⟩
    rw [isStep, Bool.and_eq_true, bne_iff_ne, bne_iff_ne]
    constructor
    · rintro rfl
      cases hc
    · rintro rfl
      exact hpoint (by simpa using hc)
  · rintro ⟨s, hs, hc⟩
    exact ⟨s, (List.mem_filter.mp hs).1, hc⟩

theorem startComponent_of_ne {segment : String} (h : segment ≠ "") :
    ∃ c, Path.Component.ofSegment? true segment = some c := by
  unfold Path.Component.ofSegment?
  rw [if_neg h]
  split
  · exact ⟨_, rfl⟩
  · split <;> exact ⟨_, rfl⟩

theorem components_eq_nil {p : Path} : p.components = [] ↔ p.spelling = "" := by
  constructor
  · intro h
    cases habsolute : p.isAbsolute with
    | true => simp [Path.components, habsolute] at h
    | false =>
        rw [← String.toList_eq_nil_iff]
        cases hlist : p.spelling.toList with
        | nil => rfl
        | cons c rest =>
            -- The first segment of a relative path always counts.
            have hc : c ≠ '/' := by
              rintro rfl
              simp [Path.isAbsolute, hlist] at habsolute
            have hfirst : ∃ first others, split '/' (c :: rest) = (c :: first) :: others := by
              rw [split, if_neg hc]
              split <;> exact ⟨_, _, rfl⟩
            rcases hfirst with ⟨first, others, hsplit⟩
            have hne : String.ofList (c :: first) ≠ "" := by
              intro heq
              have hnil := congrArg String.toList heq
              simp at hnil
            rcases startComponent_of_ne hne with ⟨component, hcomponent⟩
            rw [Path.components, habsolute, if_neg Bool.false_ne_true,
              segments_of_relative habsolute, hlist, hsplit, List.map_cons, Path.componentsFrom,
              hcomponent] at h
            cases h
  · intro h
    rcases p with ⟨spelling⟩
    subst h
    decide

/-!
## Joined paths
-/

theorem join_of_absolute {d p : Path} (h : p.isAbsolute = true) : d.join p = p := by
  simp [Path.join, h]

theorem join_cases (d : Path) {p : Path} (h : p.isAbsolute = false) :
    (d.spelling = "" ∧ d.join p = p) ∨
      ∃ front back, (d.join p).spelling.toList = front ++ '/' :: p.spelling.toList ∧
        d.spelling.toList = front ++ back ∧ (back = [] ∧ front ≠ [] ∨ back = ['/']) := by
  cases hlast : d.spelling.toList.getLast? with
  | none =>
      have hnil : d.spelling = "" :=
        String.toList_eq_nil_iff.mp (List.getLast?_eq_none_iff.mp hlast)
      exact Or.inl ⟨hnil, by simp [Path.join, h, hlast]⟩
  | some c =>
      rcases List.getLast?_eq_some_iff.mp hlast with ⟨front, hfront⟩
      refine Or.inr ?_
      by_cases hc : c = '/'
      · subst hc
        refine ⟨front, ['/'], ?_, hfront, Or.inr rfl⟩
        simp [Path.join, h, hfront]
      · refine ⟨d.spelling.toList, [], ?_, by simp, Or.inl ⟨rfl, by simp [hfront]⟩⟩
        simp [Path.join, h, hlast]

theorem segments_of_split {p : Path} (front : List Char) {more : List (List Char)}
    (h : split '/' p.spelling.toList = split '/' front ++ more) :
    p.segments = (if p.isAbsolute then ((split '/' front).map String.ofList).drop 1
      else (split '/' front).map String.ofList) ++ more.map String.ofList := by
  have hlength : 1 ≤ ((split '/' front).map String.ofList).length := by
    rw [List.length_map, Nat.one_le_iff_ne_zero, Ne, List.length_eq_zero_iff]
    exact split_ne_nil '/' front
  simp only [Path.segments, h, List.map_append]
  split
  · exact List.drop_append_of_le_length hlength
  · rfl

/-- A path behind another has the steps of both, and segments of its own at the end. -/
theorem segments_join (d : Path) {p : Path} (h : p.isAbsolute = false) :
    (d.join p).isAbsolute = d.isAbsolute ∧
      ∃ front, (d.join p).segments = front ++ p.segments ∧ front.filter isStep = d.steps := by
  rcases join_cases d h with ⟨hempty, hjoin⟩ | ⟨front, back, hjoin, hd, hback⟩
  · have habsolute : d.isAbsolute = false := by simp [Path.isAbsolute, hempty]
    rw [hjoin, h, habsolute, Path.steps, components_eq_nil.mpr hempty]
    exact ⟨rfl, [], rfl, rfl⟩
  · have hhead : (d.join p).spelling.toList.head? = d.spelling.toList.head? := by
      rw [hjoin, hd]
      rcases hback with ⟨rfl, hfront⟩ | rfl
      · cases front with
        | nil => exact absurd rfl hfront
        | cons c rest => rfl
      · cases front <;> rfl
    have habsolute : (d.join p).isAbsolute = d.isAbsolute := by
      rw [Path.isAbsolute, hhead, Path.isAbsolute]
    have hend : split '/' [] = [[]] := rfl
    refine ⟨habsolute, if d.isAbsolute then ((split '/' front).map String.ofList).drop 1
      else (split '/' front).map String.ofList, ?_, ?_⟩
    · rw [segments_of_split front (by rw [hjoin, split_join]), habsolute, segments_of_relative h]
    · rw [steps_eq]
      rcases hback with ⟨rfl, _⟩ | rfl
      · have hnone : split '/' d.spelling.toList = split '/' front ++ [] := by simp [hd]
        rw [segments_of_split front hnone, List.map_nil, List.append_nil]
      · rw [segments_of_split front (by rw [hd, split_join, hend])]
        simp [isStep]

theorem steps_join (d : Path) {p : Path} (h : p.isAbsolute = false) :
    (d.join p).steps = d.steps ++ p.steps := by
  rcases segments_join d h with ⟨_, front, hfront, hsteps⟩
  rw [steps_eq, hfront, List.filter_append, hsteps, ← steps_eq]

namespace FileSystem

variable {fs : FileSystem}

/-!
## Following steps
-/

theorem follow_of_not_step {a : Standing} {s : String} {rest : List String}
    (hs : isStep s = false) (hrest : rest ≠ []) :
    fs.follow false a (s :: rest) = fs.follow false a rest := by
  rcases a with ⟨place, links⟩
  have hblank : s = "" ∨ s = "." := by
    rw [isStep, Bool.and_eq_false_iff, bne_eq_false_iff_eq, bne_eq_false_iff_eq] at hs
    exact hs
  cases rest with
  | nil => exact absurd rfl hrest
  | cons t more =>
      by_cases hdirectory : fs.entry? place = some .directory
      · exact follow_of_place (turn_of_turns hdirectory (.stay hblank))
      · rcases turn_error hdirectory with ⟨e, he⟩
        rw [follow_of_error (he _ _), follow_of_error (he _ _)]

theorem follow_steps {tail : List String} (htail : tail ≠ []) (segments : List String)
    (a : Standing) :
    fs.follow false a (segments ++ tail) = fs.follow false a (segments.filter isStep ++ tail) := by
  induction segments generalizing a with
  | nil => rfl
  | cons s rest ih =>
      cases hs : isStep s with
      | false =>
          rw [List.filter_cons_of_neg (by simp [hs]), List.cons_append,
            follow_of_not_step hs (by simp [htail]), ih]
      | true =>
          rw [List.filter_cons_of_pos hs, List.cons_append, List.cons_append, follow_cons,
            follow_cons _ s (_ ++ _)]
          simp only [ih]

/-!
## Looking up joined paths
-/

def IsShort (p : Path) : Prop :=
  p.spelling.utf8ByteSize < maxPath

theorem checkSpelling_congr {p q : Path} (hp : IsShort p) (hq : IsShort q)
    (hnul : '\x00' ∈ p.spelling.toList ↔ '\x00' ∈ q.spelling.toList)
    (hempty : p.spelling = "" ↔ q.spelling = "") : checkSpelling p = checkSpelling q := by
  unfold checkSpelling
  simp only [List.contains_iff_mem, hnul, hempty, Nat.not_le.mpr hp, Nat.not_le.mpr hq]

theorem mem_join {d p : Path} (h : p.isAbsolute = false) {c : Char} (hc : c ≠ '/') :
    c ∈ (d.join p).spelling.toList ↔ c ∈ d.spelling.toList ∨ c ∈ p.spelling.toList := by
  rcases join_cases d h with ⟨hempty, hjoin⟩ | ⟨front, back, hjoin, hd, hback⟩
  · simp [hjoin, hempty]
  · rw [hjoin, hd]
    rcases hback with ⟨rfl, _⟩ | rfl <;> simp [hc]

theorem join_eq_empty {d p : Path} (h : p.isAbsolute = false) :
    (d.join p).spelling = "" ↔ d.spelling = "" ∧ p.spelling = "" := by
  rcases join_cases d h with ⟨hempty, hjoin⟩ | ⟨front, back, hjoin, hd, hback⟩
  · simp [hjoin, hempty]
  · rw [← String.toList_eq_nil_iff, hjoin, ← String.toList_eq_nil_iff, hd]
    rcases hback with ⟨rfl, hfront⟩ | rfl
    · simp [hfront]
    · simp

theorem locate_join_congr (fs : FileSystem) {d d' : Path} (h : (d == d') = true) (p : Path)
    (hshort : IsShort (d.join p)) (hshort' : IsShort (d'.join p)) :
    fs.locate (d.join p) = fs.locate (d'.join p) := by
  cases habsolute : p.isAbsolute with
  | true => rw [join_of_absolute habsolute, join_of_absolute habsolute]
  | false =>
      rcases segments_join d habsolute with ⟨hroot, front, hfront, hsteps⟩
      rcases segments_join d' habsolute with ⟨hroot', front', hfront', hsteps'⟩
      have htail : p.segments ≠ [] := by
        simp [segments_of_relative habsolute, split_ne_nil]
      have hnul : '\x00' ∈ (d.join p).spelling.toList ↔ '\x00' ∈ (d'.join p).spelling.toList := by
        have hslash : '\x00' ≠ '/' := by decide
        have hpoint : '\x00' ≠ '.' := by decide
        rw [mem_join habsolute hslash, mem_join habsolute hslash, mem_steps d hslash hpoint,
          mem_steps d' hslash hpoint, steps_congr h]
      have hempty : (d.join p).spelling = "" ↔ (d'.join p).spelling = "" := by
        simp only [join_eq_empty habsolute, ← components_eq_nil, Path.beq_iff.mp h]
      have hstart : fs.start (d.join p) = fs.start (d'.join p) := by
        rw [start, start, startIn, startIn, hroot, hroot', isAbsolute_congr h]
      rw [locate, locate, lead, lead, checkSpelling_congr hshort hshort' hnul hempty, hstart,
        hfront, hfront', follow_steps htail front, follow_steps htail front', hsteps, hsteps',
        steps_congr h]

end FileSystem

end LuaBundle
