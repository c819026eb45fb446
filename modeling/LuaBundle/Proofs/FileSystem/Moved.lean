import LuaBundle.Proofs.FileSystem.Inner
import LuaBundle.Proofs.Project.Stateless

/-!
# One tree under two roots

The same files and directories may lie below different places.  A path that leads from the
root of the one to something in it is the same way from the root of the other, and leads to
the same, unless the path is too long to be looked up in one of them only.
-/

namespace LuaBundle

open Text

namespace Path

/-!
## The same way from two roots
-/

/-- Whether two paths are the same way from two roots: the roots themselves, or one path that
is read from each. -/
inductive Moved (p q : Place) : Path → Path → Prop where
  | root : Moved p q (ofNames p) (ofNames q)
  | inner {rel} (h : rel.IsInner) : Moved p q ((ofNames p).join rel) ((ofNames q).join rel)

/-- Whether two paths are the canonical ones of one place below two roots. -/
def MovedBelow (p q : Place) (a b : Path) : Prop :=
  ∃ names, names ≠ [] ∧ (∀ name ∈ names, IsProper name) ∧ a = ofNames (p ++ names) ∧
    b = ofNames (q ++ names)

section Moved

variable {p q : Place} {a b c d : Path}

theorem Moved.join {rel : Path} (h : Moved p q a b) (hrel : rel.IsInner) :
    Moved p q (a.join rel) (b.join rel) := by
  cases h with
  | root => exact .inner hrel
  | inner hfirst =>
    rw [join_assoc _ hfirst.relative, join_assoc _ hfirst.relative]
    exact .inner (hfirst.join hrel)

theorem isAbsolute_join_ofNames (names : List String) {rel : Path} (h : rel.isAbsolute = false) :
    ((ofNames names).join rel).isAbsolute = true := by
  rw [(segments_join _ h).1, isAbsolute_ofNames]

section Proper

variable (hp : ∀ name ∈ p, IsProper name) (hq : ∀ name ∈ q, IsProper name)
include hp hq

theorem Moved.steps (h : Moved p q a b) : a.isAbsolute = true ∧ b.isAbsolute = true ∧
    ∃ more, a.steps = p ++ more ∧ b.steps = q ++ more := by
  cases h with
  | root =>
    refine ⟨isAbsolute_ofNames p, isAbsolute_ofNames q, [], ?_, ?_⟩
    · rw [FileSystem.steps_ofNames hp, List.append_nil]
    · rw [FileSystem.steps_ofNames hq, List.append_nil]
  | @inner rel hrel =>
    refine ⟨isAbsolute_join_ofNames p hrel.relative, isAbsolute_join_ofNames q hrel.relative,
      rel.steps, ?_, ?_⟩
    · rw [steps_join _ hrel.relative, FileSystem.steps_ofNames hp]
    · rw [steps_join _ hrel.relative, FileSystem.steps_ofNames hq]

theorem Moved.beq (h : Moved p q a b) (h' : Moved p q c d) : (a == c) = (b == d) := by
  obtain ⟨ha, hb, more, hfirst, hfirst'⟩ := h.steps hp hq
  obtain ⟨hc, hd, more', hsecond, hsecond'⟩ := h'.steps hp hq
  rw [Bool.eq_iff_iff]
  constructor
  · intro hsame
    have heq := steps_congr hsame
    rw [hfirst, hsecond, List.append_cancel_left_eq] at heq
    exact same_of_steps hb hd (by rw [hfirst', hsecond', heq])
  · intro hsame
    have heq := steps_congr hsame
    rw [hfirst', hsecond', List.append_cancel_left_eq] at heq
    exact same_of_steps ha hc (by rw [hfirst, hsecond, heq])

theorem moved_ofNames (hne : p ≠ []) (hne' : q ≠ []) {names : List String}
    (h : ∀ name ∈ names, IsProper name) :
    Moved p q (ofNames (p ++ names)) (ofNames (q ++ names)) := by
  by_cases hnames : names = []
  · rw [hnames, List.append_nil, List.append_nil]
    exact .root
  · obtain ⟨hrelative, hsegments⟩ := segments_intercalate hnames h
    rw [ofNames_append hne hp hnames h, ofNames_append hne' hq hnames h]
    apply Moved.inner
    constructor
    case relative => exact hrelative
    case inside =>
      rw [hsegments]
      apply staysInside_of_no_parent
      intro hparent
      exact (h _ hparent).2.2.1 rfl

end Proper

end Moved

/-!
## Directories of places
-/

theorem trimSegments_of_proper {names : List String} (h : ∀ name ∈ names, IsProper name)
    (starts : Bool) : trimSegments starts names = names := by
  induction names generalizing starts with
  | nil => rfl
  | cons name rest ih =>
    rw [trimSegments, ih (fun name hname => h name (List.mem_cons_of_mem _ hname))]
    cases rest with
    | nil => simp [isMeaningful, component_of_proper (h name (by simp))]
    | cons next others => rfl

theorem directory_ofNames {names : List String} (hne : names ≠ [])
    (h : ∀ name ∈ names, IsProper name) :
    directoryOf (ofNames names) = ofNames names.dropLast := by
  have habove : ∀ name ∈ names.dropLast, IsProper name :=
    fun name hname => h name (List.dropLast_subset _ hname)
  have hparent : (ofNames names).parent? = some (ofNames names.dropLast) := by
    unfold parent?
    simp only [segments_ofNames hne h, trimSegments_of_proper h, isAbsolute_ofNames,
      trimSegments_of_proper habove, if_true]
    cases names with
    | nil => exact absurd rfl hne
    | cons name rest => rfl
  rw [directoryOf, hparent, Option.getD_some]

end Path

/-!
## Trees
-/

namespace FileSystem

/-- A directory below the root of the file system, reached by names. -/
structure IsRoot (fs : FileSystem) (place : Place) : Prop extends fs.IsReached place where
  directory : fs.entry? place = some .directory
  below : place ≠ []

theorem file_of_read {fs : FileSystem} {a : Path} {content : Bytes}
    (h : fs.read a = .ok content) :
    ∃ place, fs.locate a = .ok place ∧ fs.entry? place = some (.file content) := by
  unfold FileSystem.read at h
  cases hlocate : fs.locate a with
  | error e =>
    rw [hlocate] at h
    cases h
  | ok place =>
    simp only [hlocate, bind, Except.bind] at h
    split at h
    · rename_i hentry
      cases h
      exact ⟨place, rfl, hentry⟩
    · cases h
    · cases h

theorem eq_of_canonicalize {fs : FileSystem} {place : Place} {c : Path}
    (hplace : ∀ name ∈ place, IsProper name) (hreal : fs.IsReal place)
    (h : fs.canonicalize (Path.ofNames place) = .ok c) : c = Path.ofNames place := by
  obtain ⟨place', hlocate, rfl⟩ := locate_of_canonicalize h
  rw [locate_ofNames hplace hreal hlocate]

/-- Whether the same files and directories, and no links, lie below two places. -/
structure SameTree (fs fs' : FileSystem) (p q : Place) : Prop where
  root : fs.IsRoot p
  root' : fs'.IsRoot q
  same : ∀ names, fs.entry? (p ++ names) = fs'.entry? (q ++ names)
  free : ∀ names, fs.link? (p ++ names) = none
  free' : ∀ names, fs'.link? (q ++ names) = none

theorem follow_blank {fs : FileSystem} {a b : Standing} {s : String} (hs : isStep s = false)
    (h : fs.follow false a [s] = .ok b) : b = a := by
  rw [follow_of_place (turn_of_turns (follow_cons_ok h) (.stay (isStep_eq_false.mp hs))),
    follow_nil, Except.ok.injEq] at h
  exact h.symm

theorem follow_filter {fs : FileSystem} {segments : List String} {a b : Standing}
    (h : fs.follow false a segments = .ok b) :
    fs.follow false a (segments.filter isStep) = .ok b := by
  induction segments generalizing a with
  | nil => exact h
  | cons s rest ih =>
    rw [follow_cons] at h
    cases hfirst : fs.follow false a [s] with
    | error e =>
      rw [hfirst] at h
      cases h
    | ok c =>
      rw [hfirst] at h
      cases hs : isStep s with
      | false =>
        rw [List.filter_cons_of_neg (by simp [hs])]
        rw [follow_blank hs hfirst] at h
        exact ih h
      | true =>
        rw [List.filter_cons_of_pos hs, follow_cons, hfirst]
        exact ih h

theorem IsRoot.follow_join {fs : FileSystem} {p : Place} (h : fs.IsRoot p) {rel : Path}
    (hrel : rel.isAbsolute = false) :
    fs.follow false (fs.start ((Path.ofNames p).join rel)) ((Path.ofNames p).join rel).segments =
      fs.follow false ⟨p, maxLinks⟩ rel.segments := by
  obtain ⟨habsolute, front, hsegments, hsteps⟩ := segments_join (Path.ofNames p) hrel
  have htail : rel.segments ≠ [] := by simp [segments_of_relative hrel, split_ne_nil]
  rw [start, startIn, habsolute, isAbsolute_ofNames, if_pos rfl, hsegments,
    follow_steps htail front, hsteps, steps_ofNames h.proper, follow_append, h.reached]
  rfl

theorem proper_of_absolute {fs : FileSystem} {c : Path} {place : Place} (hc : c.isAbsolute = true)
    (hlocate : fs.locate c = .ok place) : ∀ name ∈ place, IsProper name := by
  obtain ⟨_, links, hway⟩ := way_of_lead hlocate
  refine hway.proper ?_ (segments_no_slash c)
  simp [start, startIn, hc]

theorem isReal_below {fs : FileSystem} {place : Place} (hreal : fs.IsReal place)
    (hfree : ∀ names, fs.link? (place ++ names) = none) (names : List String) :
    fs.IsReal (place ++ names) := by
  intro front hfront
  rcases List.prefix_or_prefix_of_prefix hfront (List.prefix_append place names) with
    habove | ⟨more, rfl⟩
  · exact hreal front habove
  · exact hfree more

section SameTree

variable {fs fs' : FileSystem} {p q : Place} {a b : Path} (h : SameTree fs fs' p q)
include h

theorem SameTree.turn (names : List String) {s : String} {rest : List String}
    (hinside : Path.staysInside names.length (s :: rest) = true) :
    (∃ e, fs.turn false (p ++ names) s = .error e ∧ fs'.turn false (q ++ names) s = .error e) ∨
      ∃ next : List String, Path.staysInside next.length rest = true ∧
        fs.turn false (p ++ names) s = .ok (.place (p ++ next)) ∧
        fs'.turn false (q ++ names) s = .ok (.place (q ++ next)) := by
  unfold FileSystem.turn
  rw [h.same names]
  cases fs'.entry? (q ++ names) with
  | none => exact .inl ⟨.missing, rfl, rfl⟩
  | some entry =>
    cases entry with
    | file content => exact .inl ⟨.notDirectory, rfl, rfl⟩
    | directory =>
      simp only
      cases hstep : isStep s with
      | false =>
        have hblank := isStep_eq_false.mp hstep
        rw [Path.staysInside, hstep, if_neg Bool.false_ne_true] at hinside
        rw [if_pos hblank, if_pos hblank]
        exact .inr ⟨names, hinside, rfl, rfl⟩
      | true =>
        have hblank : ¬(s = "" ∨ s = ".") := by
          rw [← isStep_eq_false, hstep]
          exact Bool.noConfusion
        rw [Path.staysInside, hstep, if_pos rfl] at hinside
        rw [if_neg hblank, if_neg hblank]
        by_cases hparent : s = ".."
        · rw [if_pos hparent, Bool.and_eq_true, decide_eq_true_eq] at hinside
          have hne : names ≠ [] := List.ne_nil_of_length_pos hinside.1
          rw [if_pos hparent, if_pos hparent, List.dropLast_append_of_ne_nil hne,
            List.dropLast_append_of_ne_nil hne]
          exact .inr ⟨names.dropLast, by rw [List.length_dropLast]; exact hinside.2, rfl, rfl⟩
        · rw [if_neg hparent] at hinside
          rw [if_neg hparent, if_neg hparent, List.append_assoc, List.append_assoc,
            h.same (names ++ [s]), h.free, h.free']
          by_cases hlong : maxName < s.utf8ByteSize
          · rw [if_pos hlong, if_pos hlong]
            exact .inl ⟨.badName, rfl, rfl⟩
          · rw [if_neg hlong, if_neg hlong]
            cases (fs'.entry? (q ++ (names ++ [s]))).isSome with
            | false => exact .inl ⟨.missing, rfl, rfl⟩
            | true => exact .inr ⟨names ++ [s], by simpa using hinside, rfl, rfl⟩

theorem SameTree.follow (links : Nat) {segments : List String} (names : List String)
    (hinside : Path.staysInside names.length segments = true) :
    ∃ outcome : Except Trouble (List String),
      fs.follow false ⟨p ++ names, links⟩ segments = outcome.map (fun more => ⟨p ++ more, links⟩) ∧
      fs'.follow false ⟨q ++ names, links⟩ segments =
        outcome.map (fun more => ⟨q ++ more, links⟩) := by
  induction segments generalizing names with
  | nil => exact ⟨.ok names, follow_nil _ _ _, follow_nil _ _ _⟩
  | cons s rest ih =>
    rcases h.turn names hinside with ⟨e, hturn, hturn'⟩ | ⟨next, hmore, hturn, hturn'⟩
    · exact ⟨.error e, follow_of_error hturn, follow_of_error hturn'⟩
    · rw [follow_of_place hturn, follow_of_place hturn']
      exact ih next hmore

theorem SameTree.checkSpelling (hab : Path.Moved p q a b) (hshort : IsShort a ↔ IsShort b) :
    checkSpelling a = checkSpelling b := by
  obtain ⟨ha, hb, more, hsteps, hsteps'⟩ := hab.steps h.root.proper h.root'.proper
  have hslash : '\x00' ≠ '/' := by decide
  have hpoint : '\x00' ≠ '.' := by decide
  have hnul : '\x00' ∈ a.spelling.toList ↔ '\x00' ∈ b.spelling.toList := by
    have hplain : ∀ {names : List String}, (∀ name ∈ names, '\x00' ∉ name.toList) →
        ((∃ s ∈ names ++ more, '\x00' ∈ s.toList) ↔ ∃ s ∈ more, '\x00' ∈ s.toList) := by
      intro names hnames
      constructor
      · rintro ⟨s, hs, hmem⟩
        cases List.mem_append.mp hs with
        | inl hs => exact absurd hmem (hnames s hs)
        | inr hs => exact ⟨s, hs, hmem⟩
      · rintro ⟨s, hs, hmem⟩
        exact ⟨s, List.mem_append_right _ hs, hmem⟩
    rw [mem_steps a hslash hpoint, mem_steps b hslash hpoint, hsteps, hsteps',
      hplain h.root.plain, hplain h.root'.plain]
  have hnonempty : ∀ {c : Path}, c.isAbsolute = true → c.spelling ≠ "" := by
    intro c hc hempty
    simp [Path.isAbsolute, hempty] at hc
  have hlong : maxPath ≤ a.spelling.utf8ByteSize ↔ maxPath ≤ b.spelling.utf8ByteSize := by
    rw [← Nat.not_lt, ← Nat.not_lt]
    exact not_congr hshort
  unfold FileSystem.checkSpelling
  simp only [List.contains_iff_mem, hnul, hnonempty ha, hnonempty hb, hlong]

theorem SameTree.locate (hab : Path.Moved p q a b) (hshort : IsShort a ↔ IsShort b) :
    ∃ outcome : Except Trouble (List String),
      fs.locate a = outcome.map (p ++ ·) ∧ fs'.locate b = outcome.map (q ++ ·) := by
  have hfollow : ∃ outcome : Except Trouble (List String),
      fs.follow false (fs.start a) a.segments =
        outcome.map (fun more => ⟨p ++ more, maxLinks⟩) ∧
      fs'.follow false (fs'.start b) b.segments =
        outcome.map (fun more => ⟨q ++ more, maxLinks⟩) := by
    cases hab with
    | root =>
      refine ⟨.ok [], ?_, ?_⟩
      · rw [start_ofNames, follow_ofNames h.root.proper _ rfl, h.root.reached]
        simp [Except.map]
      · rw [start_ofNames, follow_ofNames h.root'.proper _ rfl, h.root'.reached]
        simp [Except.map]
    | @inner rel hrel =>
      rw [h.root.follow_join hrel.relative, h.root'.follow_join hrel.relative]
      have hinside := h.follow maxLinks [] hrel.inside
      rw [List.append_nil, List.append_nil] at hinside
      exact hinside
  rw [FileSystem.locate, FileSystem.locate, lead, lead, h.checkSpelling hab hshort]
  cases FileSystem.checkSpelling b with
  | error e => exact ⟨.error e, rfl, rfl⟩
  | ok u =>
    obtain ⟨outcome, ha, hb⟩ := hfollow
    rw [ha, hb]
    cases outcome with
    | error e => exact ⟨.error e, rfl, rfl⟩
    | ok names => exact ⟨.ok names, rfl, rfl⟩

theorem SameTree.isFile (hab : Path.Moved p q a b) (hshort : IsShort a ↔ IsShort b) :
    fs.isFile a = fs'.isFile b := by
  obtain ⟨outcome, ha, hb⟩ := h.locate hab hshort
  unfold FileSystem.isFile find?
  rw [ha, hb]
  cases outcome with
  | error e => rfl
  | ok names => simp only [Except.map, h.same names]

theorem SameTree.read (hab : Path.Moved p q a b) (hshort : IsShort a ↔ IsShort b) :
    fs.read a = fs'.read b := by
  obtain ⟨outcome, ha, hb⟩ := h.locate hab hshort
  unfold FileSystem.read
  rw [ha, hb]
  cases outcome with
  | error e => rfl
  | ok names => simp only [Except.map, bind, Except.bind, h.same names]

/-- What a path of a tree leads to has one canonical path below the roots. -/
theorem SameTree.canonicalize (hab : Path.Moved p q a b) (hshort : IsShort a ↔ IsShort b) :
    (∃ e, fs.canonicalize a = .error e ∧ fs'.canonicalize b = .error e) ∨
      ∃ names, (∀ name ∈ names, IsProper name) ∧
        fs.canonicalize a = .ok (.ofNames (p ++ names)) ∧
        fs'.canonicalize b = .ok (.ofNames (q ++ names)) := by
  obtain ⟨outcome, ha, hb⟩ := h.locate hab hshort
  rw [FileSystem.canonicalize, FileSystem.canonicalize, ha, hb]
  cases outcome with
  | error e => exact .inl ⟨e, rfl, rfl⟩
  | ok names =>
    right
    have hproper := proper_of_absolute (hab.steps h.root.proper h.root'.proper).1 ha
    exact ⟨names, fun name hname => hproper name (List.mem_append_right _ hname), rfl, rfl⟩

theorem SameTree.canonicalize_file (hab : Path.Moved p q a b) (hshort : IsShort a ↔ IsShort b)
    (hfile : fs.isFile a = true) :
    ∃ c d, fs.canonicalize a = .ok c ∧ fs'.canonicalize b = .ok d ∧ Path.MovedBelow p q c d := by
  obtain ⟨place, content, hlocate, hentry, hcanonical⟩ := place_of_isFile hfile
  rcases h.canonicalize hab hshort with ⟨e, he, _⟩ | ⟨names, hproper, ha, hb⟩
  · rw [hcanonical] at he
    cases he
  · refine ⟨_, _, ha, hb, names, ?_, hproper, rfl, rfl⟩
    -- The root itself is no file.
    rintro rfl
    rw [hcanonical, List.append_nil, Except.ok.injEq] at ha
    have hplace := proper_of_absolute (hab.steps h.root.proper h.root'.proper).1 hlocate
    have hroot : place = p := ofNames_injective hplace h.root.proper (by rw [ha]; exact BEq.rfl)
    rw [hroot, h.root.directory] at hentry
    cases hentry

theorem SameTree.moved (hab : Path.MovedBelow p q a b) : Path.Moved p q a b := by
  obtain ⟨names, _, hnames, rfl, rfl⟩ := hab
  exact Path.moved_ofNames h.root.proper h.root'.proper h.root.below h.root'.below hnames

/-- The directories of a place below the roots are the same way from them. -/
theorem SameTree.directory (hab : Path.MovedBelow p q a b) :
    Path.Moved p q (directoryOf a) (directoryOf b) := by
  obtain ⟨names, hne, hnames, rfl, rfl⟩ := hab
  rw [Path.directory_ofNames (by simp [hne]) (List.forall_mem_append.mpr ⟨h.root.proper, hnames⟩),
    Path.directory_ofNames (by simp [hne]) (List.forall_mem_append.mpr ⟨h.root'.proper, hnames⟩),
    List.dropLast_append_of_ne_nil hne, List.dropLast_append_of_ne_nil hne]
  exact Path.moved_ofNames h.root.proper h.root'.proper h.root.below h.root'.below
    fun name hname => hnames name (List.dropLast_subset _ hname)

theorem SameTree.fileName (hab : Path.Moved p q a b) (hfile : fs.isFile a = true) :
    a.fileName? = b.fileName? := by
  obtain ⟨ha, hb, more, hsteps, hsteps'⟩ := hab.steps h.root.proper h.root'.proper
  have hmore : more ≠ [] := by
    rintro rfl
    obtain ⟨place, content, hlocate, hentry, _⟩ := place_of_isFile hfile
    obtain ⟨_, links, hway⟩ := way_of_lead hlocate
    have hnames := follow_filter hway.follow
    rw [start, startIn, ha, if_pos rfl, ← steps_eq, hsteps, List.append_nil, h.root.reached,
      Except.ok.injEq, Standing.mk.injEq] at hnames
    rw [← hnames.1, h.root.directory] at hentry
    cases hentry
  have hlast : ∀ {c : Path} {names : List String}, c.isAbsolute = true →
      c.steps = names ++ more → c.components.getLast? =
        (more.map fun s => if s = ".." then Path.Component.parent else .normal s).getLast? := by
    intro c names hc hsteps
    rw [Path.components, if_pos hc, components_of_steps, ← steps_eq, hsteps, List.map_append,
      ← List.cons_append, List.getLast?_append]
    cases hend :
        (more.map fun s => if s = ".." then Path.Component.parent else .normal s).getLast? with
    | none => exact absurd (List.map_eq_nil_iff.mp (List.getLast?_eq_none_iff.mp hend)) hmore
    | some c => rfl
  rw [Path.fileName?, Path.fileName?, hlast ha hsteps, hlast hb hsteps']

end SameTree

/-- The names that lead to a place below the root lead through its directory. -/
theorem IsReached.above_directory {fs : FileSystem} {place : Place} (h : fs.IsReached place) :
    fs.entry? place.dropLast = some .directory := by
  rcases List.eq_nil_or_concat place with rfl | ⟨above, last, hplace⟩
  · rfl
  · rw [List.concat_eq_append] at hplace
    subst hplace
    have habove := h.above.reached 0
    have hnames := h.reached 0
    rw [List.dropLast_concat] at habove ⊢
    rw [follow_append, habove] at hnames
    exact follow_cons_ok hnames

theorem isFile_of_parent {fs : FileSystem} {a : Path} {front : List String}
    (ha : a.isAbsolute = true) (hsegments : a.segments = front ++ [".."]) :
    fs.isFile a = false := by
  rw [Bool.eq_false_iff]
  intro hfile
  obtain ⟨place, content, hlocate, hentry, _⟩ := place_of_isFile hfile
  obtain ⟨hcheck, links, hway⟩ := way_of_lead hlocate
  have hfollow := hway.follow
  rw [start, startIn, ha, if_pos rfl, hsegments, follow_append] at hfollow
  cases hfront : fs.follow false ⟨[], maxLinks⟩ front with
  | error e =>
    rw [hfront] at hfollow
    cases hfollow
  | ok below =>
    have hreached : fs.IsReached below.place := by
      refine (way_of_follow hfront).isReached (isReached_root fs) fun s hs => ?_
      apply plain_segments hcheck
      rw [hsegments]
      exact List.mem_append_left _ hs
    rw [hfront] at hfollow
    have hturn : fs.turn false below.place ".." = .ok (.place below.place.dropLast) :=
      turn_of_turns (follow_cons_ok hfollow) .up
    have hplace : below.place.dropLast = place := by
      rcases below with ⟨place', links'⟩
      have hlast := (follow_of_place hturn).symm.trans hfollow
      rw [follow_nil, Except.ok.injEq, Standing.mk.injEq] at hlast
      exact hlast.1
    rw [← hplace, hreached.above_directory] at hentry
    cases hentry

end FileSystem
end LuaBundle
