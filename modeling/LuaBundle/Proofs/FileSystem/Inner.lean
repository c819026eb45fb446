import LuaBundle.Proofs.FileSystem.Canonical

/-!
# Paths that stay inside

A relative path that never leads above the place that it is read from stays inside wherever
that place is.  Such paths may be joined, and the path of a place below another is one.
-/

namespace LuaBundle

open Text

theorem isStep_eq_false {s : String} : isStep s = false ↔ s = "" ∨ s = "." := by
  rw [isStep, Bool.and_eq_false_iff, bne_eq_false_iff_eq, bne_eq_false_iff_eq]

namespace Path

/-!
## Paths that stay inside
-/

/-- Whether segments that are followed so many names below a place never lead above it. -/
def staysInside : Nat → List String → Bool
  | _, [] => true
  | depth, s :: rest =>
      if isStep s then
        if s = ".." then decide (0 < depth) && staysInside (depth - 1) rest
        else staysInside (depth + 1) rest
      else staysInside depth rest

/-- Whether a path is relative and never leads above the place that it is read from. -/
structure IsInner (p : Path) : Prop where
  relative : p.isAbsolute = false
  inside : staysInside 0 p.segments = true

instance (p : Path) : Decidable p.IsInner :=
  decidable_of_iff (p.isAbsolute = false ∧ staysInside 0 p.segments = true)
    ⟨fun h => ⟨h.1, h.2⟩, fun h => ⟨h.relative, h.inside⟩⟩

theorem staysInside_filter (depth : Nat) (segments : List String) :
    staysInside depth (segments.filter isStep) = staysInside depth segments := by
  induction segments generalizing depth with
  | nil => rfl
  | cons s rest ih =>
    cases hs : isStep s with
    | true =>
      rw [List.filter_cons_of_pos hs, staysInside, staysInside, ih, ih, if_pos hs, if_pos hs]
    | false => rw [List.filter_cons_of_neg (by simp [hs]), staysInside, ih, if_neg (by simp [hs])]

theorem staysInside_of_le {depth depth' : Nat} {segments : List String} (hle : depth ≤ depth')
    (h : staysInside depth segments = true) : staysInside depth' segments = true := by
  induction segments generalizing depth depth' with
  | nil => rfl
  | cons s rest ih =>
    unfold staysInside at h ⊢
    split
    · rename_i hstep
      rw [if_pos hstep] at h
      split
      · rename_i hparent
        rw [if_pos hparent, Bool.and_eq_true, decide_eq_true_eq] at h
        rw [Bool.and_eq_true, decide_eq_true_eq]
        exact ⟨Nat.lt_of_lt_of_le h.1 hle, ih (Nat.sub_le_sub_right hle 1) h.2⟩
      · rename_i hparent
        rw [if_neg hparent] at h
        exact ih (Nat.add_le_add_right hle 1) h
    · rename_i hstep
      rw [if_neg hstep] at h
      exact ih hle h

theorem staysInside_append {depth : Nat} {front back : List String}
    (hfront : staysInside depth front = true) (hback : staysInside 0 back = true) :
    staysInside depth (front ++ back) = true := by
  induction front generalizing depth with
  | nil => exact staysInside_of_le (Nat.zero_le _) hback
  | cons s rest ih =>
    rw [List.cons_append]
    unfold staysInside at hfront ⊢
    split
    · rename_i hstep
      rw [if_pos hstep] at hfront
      split
      · rename_i hparent
        rw [if_pos hparent, Bool.and_eq_true] at hfront
        rw [Bool.and_eq_true]
        exact ⟨hfront.1, ih hfront.2⟩
      · rename_i hparent
        rw [if_neg hparent] at hfront
        exact ih hfront
    · rename_i hstep
      rw [if_neg hstep] at hfront
      exact ih hfront

theorem staysInside_of_no_parent {segments : List String} (h : ".." ∉ segments) (depth : Nat) :
    staysInside depth segments = true := by
  induction segments generalizing depth with
  | nil => rfl
  | cons s rest ih =>
    rw [List.mem_cons, not_or] at h
    rw [staysInside, if_neg (Ne.symm h.1), ih h.2, ih h.2]
    exact ite_self _

theorem IsInner.join {a b : Path} (ha : a.IsInner) (hb : b.IsInner) : (a.join b).IsInner := by
  obtain ⟨habsolute, front, hsegments, hsteps⟩ := segments_join a hb.relative
  constructor
  case relative => rw [habsolute, ha.relative]
  case inside =>
    rw [hsegments]
    apply staysInside_append _ hb.inside
    rw [← staysInside_filter, hsteps, steps_eq, staysInside_filter]
    exact ha.inside

/-!
## Joining
-/

theorem eq_of_toList {a b : Path} (h : a.spelling.toList = b.spelling.toList) : a = b := by
  cases a
  cases b
  exact congrArg Path.mk (String.toList_inj.mp h)

def between (base : List Char) : List Char :=
  match base.getLast? with
  | none => []
  | some c => if c = '/' then [] else ['/']

theorem toList_join (d : Path) {p : Path} (h : p.isAbsolute = false) :
    (d.join p).spelling.toList =
      d.spelling.toList ++ between d.spelling.toList ++ p.spelling.toList := by
  unfold join between
  rw [h, if_neg Bool.false_ne_true]
  split
  · rename_i hnone
    simp [List.getLast?_eq_none_iff.mp hnone]
  · rename_i hslash
    simp [hslash]
  · rename_i c hslash hlast
    have hc : c ≠ '/' := hslash
    simp [hlast, hc]

theorem between_append (front : List Char) {back : List Char} (h : back ≠ []) :
    between (front ++ back) = between back := by
  unfold between
  rw [List.getLast?_append]
  cases hlast : back.getLast? with
  | none => exact absurd (List.getLast?_eq_none_iff.mp hlast) h
  | some c => rfl

theorem between_between (base : List Char) : between (base ++ between base) = [] := by
  cases hlast : base.getLast? with
  | none => simp [between, List.getLast?_eq_none_iff.mp hlast]
  | some c =>
    by_cases hc : c = '/'
    · have hnone : between base = [] := by simp [between, hlast, hc]
      rw [hnone, List.append_nil, hnone]
    · have hsome : between base = ['/'] := by simp [between, hlast, hc]
      rw [hsome]
      simp [between]

theorem join_assoc (base : Path) {a b : Path} (ha : a.isAbsolute = false) :
    (base.join a).join b = base.join (a.join b) := by
  cases hb : b.isAbsolute with
  | true => rw [join_of_absolute hb, join_of_absolute hb, join_of_absolute hb]
  | false =>
    have hab : (a.join b).isAbsolute = false := by rw [(segments_join a hb).1, ha]
    apply eq_of_toList
    rw [toList_join _ hb, toList_join _ ha, toList_join _ hab, toList_join _ hb]
    by_cases hempty : a.spelling.toList = []
    · have hnone : between [] = [] := rfl
      rw [hempty, List.append_nil, between_between, hnone]
      simp
    · rw [between_append _ hempty]
      simp

theorem intercalate_append {pieces more : List (List Char)} (hpieces : pieces ≠ [])
    (hmore : more ≠ []) :
    ['/'].intercalate (pieces ++ more) =
      ['/'].intercalate pieces ++ '/' :: ['/'].intercalate more := by
  induction pieces with
  | nil => exact absurd rfl hpieces
  | cons piece rest ih =>
    cases rest with
    | nil =>
      cases more with
      | nil => exact absurd rfl hmore
      | cons next others => simp
    | cons next others =>
      rw [List.cons_append, List.cons_append, List.intercalate_cons_cons, ← List.cons_append,
        ih (List.cons_ne_nil _ _), List.intercalate_cons_cons]
      simp

theorem between_ofNames {names : List String} (hne : names ≠ [])
    (h : ∀ name ∈ names, IsProper name) : between (ofNames names).spelling.toList = ['/'] := by
  rcases List.eq_nil_or_concat names with rfl | ⟨front, last, hnames⟩
  · exact absurd rfl hne
  rw [List.concat_eq_append] at hnames
  subst hnames
  have hlast := h last (by simp)
  have hnonempty : last.toList ≠ [] := by
    rw [Ne, String.toList_eq_nil_iff]
    exact hlast.1
  have hend : between last.toList = ['/'] := by
    unfold between
    cases hchar : last.toList.getLast? with
    | none => exact absurd (List.getLast?_eq_none_iff.mp hchar) hnonempty
    | some c =>
      have hc : c ≠ '/' := by
        rintro rfl
        exact hlast.2.2.2 (List.mem_of_getLast? hchar)
      simp only [if_neg hc]
  rw [toList_ofNames, List.map_append]
  apply Eq.trans _ hend
  cases front with
  | nil => simpa using between_append ['/'] hnonempty
  | cons name rest =>
    rw [intercalate_append (by simp) (by simp)]
    have hsplit : '/' :: (['/'].intercalate ((name :: rest).map String.toList) ++
        '/' :: ['/'].intercalate ([last].map String.toList)) =
        ('/' :: (['/'].intercalate ((name :: rest).map String.toList) ++ ['/'])) ++
          last.toList := by simp
    rw [hsplit]
    exact between_append _ hnonempty

theorem toList_join_ofNames {names : List String} (hne : names ≠ [])
    (h : ∀ name ∈ names, IsProper name) {rel : Path} (hrel : rel.isAbsolute = false) :
    ((ofNames names).join rel).spelling.toList =
      (ofNames names).spelling.toList ++ '/' :: rel.spelling.toList := by
  rw [toList_join _ hrel, between_ofNames hne h, List.append_assoc, List.singleton_append]

theorem segments_intercalate {names : List String} (hne : names ≠ [])
    (h : ∀ name ∈ names, IsProper name) :
    (⟨"/".intercalate names⟩ : Path).isAbsolute = false ∧
      (⟨"/".intercalate names⟩ : Path).segments = names := by
  have hpieces : ∀ piece ∈ names.map String.toList, '/' ∉ piece := by
    intro piece hpiece
    obtain ⟨name, hname, rfl⟩ := List.mem_map.mp hpiece
    exact (h name hname).2.2.2
  have hrelative : (⟨"/".intercalate names⟩ : Path).isAbsolute = false := by
    cases names with
    | nil => exact absurd rfl hne
    | cons name rest =>
      have hname := h name (by simp)
      cases hlist : name.toList with
      | nil => exact absurd (String.toList_eq_nil_iff.mp hlist) hname.1
      | cons c letters =>
        have hc : c ≠ '/' := by
          rintro rfl
          exact hname.2.2.2 (by simp [hlist])
        cases rest <;> simp [isAbsolute, String.toList_intercalate, hlist, hc]
  have hsplit := split_intercalate (by simpa using hne) hpieces
  constructor
  · exact hrelative
  · rw [segments_of_relative hrelative]
    simp [String.toList_intercalate, hsplit, Function.comp_def]

theorem ofNames_append {names more : List String} (hnames : names ≠ [])
    (h : ∀ name ∈ names, IsProper name) (hmore : more ≠ [])
    (h' : ∀ name ∈ more, IsProper name) :
    ofNames (names ++ more) = (ofNames names).join ⟨"/".intercalate more⟩ := by
  apply eq_of_toList
  rw [toList_join_ofNames hnames h (segments_intercalate hmore h').1, toList_ofNames,
    List.map_append, intercalate_append (by simpa using hnames) (by simpa using hmore),
    toList_ofNames]
  simp [String.toList_intercalate]

theorem size_join_ofNames {names : List String} (hne : names ≠ [])
    (h : ∀ name ∈ names, IsProper name) {rel : Path} (hrel : rel.isAbsolute = false) :
    ((ofNames names).join rel).spelling.utf8ByteSize =
      (ofNames names).spelling.utf8ByteSize + 1 + rel.spelling.utf8ByteSize := by
  have hspelled : (ofNames names).join rel =
      ⟨(ofNames names).spelling ++ "/" ++ rel.spelling⟩ := by
    apply eq_of_toList
    rw [toList_join_ofNames hne h hrel]
    simp
  rw [hspelled, String.utf8ByteSize_append, String.utf8ByteSize_append]
  rfl

end Path
end LuaBundle
