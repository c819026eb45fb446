import LuaBundle.Proofs.Project.Inside

/-!
# Scripts of different names

A module name without points and slashes stands whole at the start of the name of its script,
with a point behind it.  Two such names lead to different files through one directory, unless
the extension leads back above them or there is a link on one of the ways.
-/

namespace LuaBundle

open FileSystem

def IsPlainName (module : String) : Prop :=
  '.' ∉ module.toList ∧ '/' ∉ module.toList

/-- Whether the extension, put behind a name, never leads back above that name. -/
def Resolver.KeepsNames (resolver : Resolver) : Prop :=
  Path.staysInside 0 ((Text.split '/' resolver.extension.toList).tail.map String.ofList) = true

instance (resolver : Resolver) : Decidable resolver.KeepsNames :=
  inferInstanceAs (Decidable (_ = true))

section Apart

variable {fs : FileSystem} {resolver : Resolver} {requester : Location}
  {module module' : String}

/-!
## Segments of plain names
-/

theorem split_append_of_not_mem {piece text first : List Char} {more : List (List Char)}
    (h : '/' ∉ piece) (htext : Text.split '/' text = first :: more) :
    Text.split '/' (piece ++ text) = (piece ++ first) :: more := by
  induction piece with
  | nil => exact htext
  | cons c piece ih =>
      rw [List.mem_cons, not_or] at h
      rw [List.cons_append, Text.split, if_neg (Ne.symm h.1), ih h.2]
      rfl

theorem relativeName_of_plain (h : IsPlainName module) : relativeName module = module := by
  have hsame : module.toList.map (fun c => if c = '.' then '/' else c) = module.toList := by
    refine (List.map_congr_left fun c hc => ?_).trans (List.map_id _)
    have hpoint : c ≠ '.' := by
      rintro rfl
      exact h.1 hc
    rw [if_neg hpoint, id]
  rw [relativeName, hsame, String.ofList_toList]

theorem isRelative_of_plain (h : IsPlainName module) : IsRelativeName module := by
  intro c hc
  have hmem := List.mem_of_mem_head? hc
  constructor
  · rintro rfl
    exact h.1 hmem
  · rintro rfl
    exact h.2 hmem

/-- A plain name stands at the start of the first segment of the name of its script. -/
theorem scriptName_of_plain (h : IsPlainName module) {first : List Char}
    {more : List (List Char)} (hsplit : Text.split '/' resolver.extension.toList = first :: more) :
    (resolver.scriptName module).isAbsolute = false ∧
      (resolver.scriptName module).segments =
        String.ofList (module.toList ++ '.' :: first) :: more.map String.ofList := by
  have hname : resolver.scriptName module =
      ⟨relativeName module ++ ("." ++ resolver.extension)⟩ := by
    rw [Resolver.scriptName, String.append_assoc]
  have hrelative : (resolver.scriptName module).isAbsolute = false := by
    rw [hname]
    exact relative_of_head (isRelative_of_plain h) _ (by simp)
  refine ⟨hrelative, ?_⟩
  have hending : Text.split '/' ("." ++ resolver.extension).toList = ('.' :: first) :: more := by
    rw [String.toList_append]
    exact split_append_of_not_mem (by decide) hsplit
  rw [segments_of_relative hrelative, hname, relativeName_of_plain h, String.toList_append,
    split_append_of_not_mem h.2 hending, List.map_cons]

/-- Before a point stands a plain name, if the whole is not a name of a file. -/
theorem eq_empty_of_plain (h : IsPlainName module) {first : List Char}
    (hsegment : String.ofList (module.toList ++ '.' :: first) ∈ ["", ".", ".."]) :
    module = "" := by
  have hletters : module.toList ++ '.' :: first ∈ [[], ['.'], ['.', '.']] := by
    have hmem := List.mem_map_of_mem hsegment (f := String.toList)
    rw [String.toList_ofList] at hmem
    exact hmem
  cases hlist : module.toList with
  | nil => exact String.toList_eq_nil_iff.mp hlist
  | cons c rest =>
      have hpoint : c = '.' := by
        rw [hlist] at hletters
        simp only [List.cons_append, List.mem_cons, List.cons.injEq, List.not_mem_nil] at hletters
        rcases hletters with hnil | ⟨hc, _⟩ | ⟨hc, _⟩ | hnone
        · cases hnil
        · exact hc
        · exact hc
        · exact hnone.elim
      exact absurd (List.mem_cons_self) (hpoint ▸ hlist ▸ h.1)

/-!
## Files of plain names
-/

/-- Two plain names lead to different places from one place, if they come to no link. -/
theorem place_ne_of_plain (hkeeps : resolver.KeepsNames) {names : List String}
    (hnames : ∀ name ∈ names, IsProper name) (hreal : fs.IsReal names) (h : IsPlainName module)
    (h' : IsPlainName module') (hne : module ≠ module')
    (hfree : fs.meetsLink names (resolver.scriptName module).segments = false)
    (hfree' : fs.meetsLink names (resolver.scriptName module').segments = false)
    {place place' : Place}
    (hplace : fs.locate ((Path.ofNames names).join (resolver.scriptName module)) = .ok place)
    (hplace' : fs.locate ((Path.ofNames names).join (resolver.scriptName module')) = .ok place') :
    place ≠ place' := by
  cases hsplit : Text.split '/' resolver.extension.toList with
  | nil => exact absurd hsplit (split_ne_nil '/' _)
  | cons first more =>
      have hinside : Path.staysInside 0 (more.map String.ofList) = true := by
        rw [Resolver.KeepsNames, hsplit, List.tail_cons] at hkeeps
        exact hkeeps
      -- What stands behind the first segment spells the same below it, whatever it is.
      have hspelled : ∀ {name : String} {place : Place}, IsPlainName name →
          fs.meetsLink names (resolver.scriptName name).segments = false →
          fs.locate ((Path.ofNames names).join (resolver.scriptName name)) = .ok place →
          place = spelled names [String.ofList (name.toList ++ '.' :: first)] ++
            spelled [] (more.map String.ofList) := by
        intro name place hname hfree hplace
        rcases scriptName_of_plain hname hsplit with ⟨hrelative, hsegments⟩
        rw [place_of_join hnames hreal hrelative hplace hfree, hsegments, spelled_cons,
          spelled_of_staysInside _ hinside]
      rw [hspelled h hfree hplace, hspelled h' hfree' hplace']
      intro hsame
      rcases eq_of_spelled (List.append_cancel_right hsame) with heq | ⟨hspecial, hspecial'⟩
      · have hletters := congrArg String.toList heq
        rw [String.toList_ofList, String.toList_ofList] at hletters
        exact hne (String.toList_inj.mp (List.append_cancel_right hletters))
      · exact hne ((eq_empty_of_plain h hspecial).trans (eq_empty_of_plain h' hspecial').symm)

theorem foundIn_requester (h : fs.isFile (requester.directory.join (resolver.scriptName module)) =
    true) : resolver.foundIn? fs requester module = some requester.directory := by
  rw [Resolver.foundIn?, Resolver.directories, List.cons_append, List.find?_cons]
  simp only [h]

/-- Scripts that are found through the directory of their requester under different plain names
are different files, if there is no link on the ways. -/
theorem path_ne_of_plain (hfs : fs.HasProperPlace) (hkeeps : resolver.KeepsNames)
    {names : List String} (hnames : ∀ name ∈ names, IsProper name) (hreal : fs.IsReal names)
    (h : IsPlainName module) (h' : IsPlainName module') (hne : module ≠ module')
    (hfree : fs.meetsLink names (resolver.scriptName module).segments = false)
    (hfree' : fs.meetsLink names (resolver.scriptName module').segments = false)
    {path path' : Path}
    (hpath : fs.canonicalize ((Path.ofNames names).join (resolver.scriptName module)) = .ok path)
    (hpath' : fs.canonicalize ((Path.ofNames names).join (resolver.scriptName module')) =
      .ok path') : (path == path') = false := by
  rcases locate_of_canonicalize hpath with ⟨place, hplace, rfl⟩
  rcases locate_of_canonicalize hpath' with ⟨place', hplace', rfl⟩
  rw [Bool.eq_false_iff]
  intro hsame
  exact place_ne_of_plain hkeeps hnames hreal h h' hne hfree hfree' hplace hplace'
    (ofNames_injective (proper_of_locate hfs hplace).1 (proper_of_locate hfs hplace').1 hsame)

end Apart

end LuaBundle
