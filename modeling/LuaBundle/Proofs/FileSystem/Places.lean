import LuaBundle.Proofs.FileSystem.Ways

/-!
# Places and their paths

A place is spelled by the names that lead to it.  When the names are names of files, the
path can be read back: it has these names for components, and where it leads anywhere, it
leads to the place.
-/

namespace LuaBundle

open Text

/-!
## Names between slashes
-/

theorem split_ne_nil (separator : Char) (text : List Char) : split separator text ≠ [] := by
  cases text with
  | nil => simp [split]
  | cons c rest =>
      unfold split
      split
      · simp
      · split <;> simp

theorem not_mem_of_mem_split {separator : Char} {text piece : List Char}
    (h : piece ∈ split separator text) : separator ∉ piece := by
  induction text generalizing piece with
  | nil =>
      simp only [split, List.mem_singleton] at h
      simp [h]
  | cons c rest ih =>
      unfold split at h
      split at h
      · rcases List.mem_cons.mp h with rfl | h
        · simp
        · exact ih h
      · rename_i hc
        have hne : separator ≠ c := fun heq => hc heq.symm
        split at h
        · rw [List.mem_singleton] at h
          simp [h, hne]
        · rename_i first others hsplit
          rcases List.mem_cons.mp h with rfl | h
          · have hfirst : separator ∉ first := ih (by simp [hsplit])
            simp [hne, hfirst]
          · exact ih (by simp [hsplit, h])

theorem split_append {separator : Char} {piece : List Char} (h : separator ∉ piece)
    (rest : List Char) :
    split separator (piece ++ separator :: rest) = piece :: split separator rest := by
  induction piece with
  | nil => simp [split]
  | cons c piece ih =>
      rw [List.mem_cons, not_or] at h
      simp [split, ih h.2, Ne.symm h.1]

theorem split_of_not_mem {separator : Char} {piece : List Char} (h : separator ∉ piece) :
    split separator piece = [piece] := by
  induction piece with
  | nil => rfl
  | cons c piece ih =>
      rw [List.mem_cons, not_or] at h
      simp [split, ih h.2, Ne.symm h.1]

theorem split_intercalate {separator : Char} {pieces : List (List Char)} (hne : pieces ≠ [])
    (h : ∀ piece ∈ pieces, separator ∉ piece) :
    split separator ([separator].intercalate pieces) = pieces := by
  induction pieces with
  | nil => exact absurd rfl hne
  | cons piece rest ih =>
      have hpiece := h piece (by simp)
      cases rest with
      | nil => simpa using split_of_not_mem hpiece
      | cons next rest =>
          have hrest := ih (by simp) fun piece hmem => h piece (by simp [hmem])
          rw [List.intercalate_cons_cons, List.append_assoc, List.singleton_append,
            split_append hpiece, hrest]

/-!
## Proper names
-/

def IsProper (name : String) : Prop :=
  name ≠ "" ∧ name ≠ "." ∧ name ≠ ".." ∧ '/' ∉ name.toList

theorem component_of_proper {name : String} (h : IsProper name) (starts : Bool) :
    Path.Component.ofSegment? starts name = some (.normal name) := by
  simp [Path.Component.ofSegment?, h.1, h.2.1, h.2.2.1]

theorem toList_ofNames (names : List String) :
    (Path.ofNames names).spelling.toList =
      '/' :: ['/'].intercalate (names.map String.toList) := by
  simp [Path.ofNames, String.toList_intercalate]

theorem isAbsolute_ofNames (names : List String) : (Path.ofNames names).isAbsolute = true := by
  simp [Path.isAbsolute, toList_ofNames]

theorem segments_ofNames {names : List String} (hne : names ≠ [])
    (h : ∀ name ∈ names, IsProper name) : (Path.ofNames names).segments = names := by
  have hpieces : ∀ piece ∈ names.map String.toList, '/' ∉ piece := by
    intro piece hpiece
    rcases List.mem_map.mp hpiece with ⟨name, hname, rfl⟩
    exact (h name hname).2.2.2
  have hsplit := split_intercalate (by simpa using hne) hpieces
  simp [Path.segments, isAbsolute_ofNames, toList_ofNames, split, hsplit, Function.comp_def]

theorem componentsFrom_of_proper {names : List String} (h : ∀ name ∈ names, IsProper name) :
    Path.componentsFrom false names = names.map .normal := by
  induction names with
  | nil => rfl
  | cons name rest ih =>
      have hrest := ih fun name hname => h name (by simp [hname])
      simp [Path.componentsFrom, component_of_proper (h name (by simp)), hrest]

theorem components_ofNames {names : List String} (h : ∀ name ∈ names, IsProper name) :
    (Path.ofNames names).components = .root :: names.map .normal := by
  cases names with
  | nil => decide
  | cons name rest =>
      rw [Path.components, isAbsolute_ofNames, segments_ofNames (by simp) h,
        componentsFrom_of_proper h]
      rfl

theorem ofNames_injective {names names' : List String} (h : ∀ name ∈ names, IsProper name)
    (h' : ∀ name ∈ names', IsProper name)
    (heq : (Path.ofNames names == Path.ofNames names') = true) : names = names' := by
  change ((Path.ofNames names).components == (Path.ofNames names').components) = true at heq
  rw [beq_iff_eq, components_ofNames h, components_ofNames h', List.cons.injEq] at heq
  exact (List.map_inj_right fun a b hab => by simpa using hab).mp heq.2

theorem segments_no_slash (p : Path) : ∀ s ∈ p.segments, '/' ∉ s.toList := by
  have hall : ∀ s ∈ (split '/' p.spelling.toList).map String.ofList, '/' ∉ s.toList := by
    intro s hs
    rcases List.mem_map.mp hs with ⟨piece, hpiece, rfl⟩
    simpa using not_mem_of_mem_split hpiece
  intro s hs
  unfold Path.segments at hs
  simp only at hs
  split at hs
  · exact hall s (List.mem_of_mem_drop hs)
  · exact hall s hs

namespace FileSystem

variable {fs : FileSystem} {creates : Bool} {place : Place}

/-!
## Following segments

What a path leads to from a place with proper names has proper names.  From a real place it is
real, so that its own names lead back to it.
-/

/-- Whether the directory that relative paths start from has proper names, and is not behind a
link. -/
def HasProperPlace (fs : FileSystem) : Prop :=
  (∀ name ∈ fs.here, IsProper name) ∧ fs.IsReal fs.here

theorem hasProperPlace_of_root (h : fs.here = []) : fs.HasProperPlace := by
  rw [HasProperPlace, h]
  exact ⟨nofun, isReal_root fs⟩

theorem proper_of_turn {s : String} {next : Place} (hplace : ∀ name ∈ place, IsProper name)
    (hs : '/' ∉ s.toList) (h : fs.turn creates place s = .ok (.place next)) :
    ∀ name ∈ next, IsProper name := by
  cases turns_of_turn h with
  | stay _ => exact hplace
  | up => exact fun name hname => hplace name (List.dropLast_subset _ hname)
  | down hblank hparent _ _ _ =>
      rw [not_or] at hblank
      intro name hname
      rcases List.mem_append.mp hname with hname | hname
      · exact hplace name hname
      · rw [List.mem_singleton.mp hname]
        exact ⟨hblank.1, hblank.2, hparent, hs⟩

theorem proper_startIn (hplace : ∀ name ∈ place, IsProper name) (p : Path) :
    ∀ name ∈ startIn place p, IsProper name := by
  unfold startIn
  split
  · simp
  · exact hplace

theorem Way.proper {a b : Standing} {segments : List String} (h : Way fs creates a segments b)
    (hplace : ∀ name ∈ a.place, IsProper name) (hsegments : ∀ s ∈ segments, '/' ∉ s.toList) :
    ∀ name ∈ b.place, IsProper name := by
  induction h with
  | here => exact hplace
  | step hturn _ ih =>
      rw [List.forall_mem_cons] at hsegments
      exact ih (proper_of_turn hplace hsegments.1 hturn) hsegments.2
  | jump _ _ _ ih =>
      rw [List.forall_mem_cons] at hsegments
      exact ih (proper_startIn hplace _)
        (List.forall_mem_append.mpr ⟨segments_no_slash _, hsegments.2⟩)

theorem proper_of_locate (hfs : fs.HasProperPlace) {p : Path} (h : fs.locate p = .ok place) :
    (∀ name ∈ place, IsProper name) ∧ fs.IsReal place := by
  rcases way_of_lead h with ⟨_, _, hway⟩
  exact ⟨hway.proper (proper_startIn hfs.1 p) (segments_no_slash p), hway.isReal (hfs.2.startIn p)⟩

/-- Proper names lead nowhere but to the place they spell, if that is real. -/
theorem Way.spelled_proper {a b : Standing} {names : List String}
    (hnames : ∀ name ∈ names, IsProper name) (hreal : fs.IsReal (a.place ++ names))
    (h : Way fs creates a names b) : b = ⟨a.place ++ names, a.links⟩ := by
  induction h with
  | here => simp
  | @step place next links s rest b hturn _ ih =>
      rcases List.forall_mem_cons.mp hnames with ⟨hproper, hrest⟩
      have hnext : next = place ++ [s] := by
        cases turns_of_turn hturn with
        | stay hblank => exact absurd hblank (not_or.mpr ⟨hproper.1, hproper.2.1⟩)
        | up => exact absurd rfl hproper.2.2.1
        | down _ _ _ _ _ => rfl
      subst hnext
      rw [← List.singleton_append, ← List.append_assoc] at hreal
      simpa using ih hrest hreal
  | @jump place links s rest target b hturn _ _ _ =>
      -- The name of a link is not on the way to a real place.
      cases turns_of_turn hturn with
      | link _ _ _ hlink =>
          have hnone : fs.link? (place ++ [s]) = none :=
            hreal _ (List.prefix_append_right_inj place |>.mpr (List.prefix_append [s] rest))
          rw [hnone] at hlink
          cases hlink

theorem start_ofNames (names : List String) : fs.start (Path.ofNames names) = ⟨[], maxLinks⟩ := by
  rw [start, startIn, isAbsolute_ofNames, if_pos rfl]

theorem follow_ofNames {names : List String} (h : ∀ name ∈ names, IsProper name)
    (a : Standing) (ha : a.place = []) :
    fs.follow creates a (Path.ofNames names).segments = fs.follow creates a names := by
  rcases a with ⟨place, links⟩
  subst ha
  cases names with
  | nil =>
      have hsegments : (Path.ofNames []).segments = [""] := by decide
      rw [hsegments, follow_of_place (turn_of_turns rfl (.stay (.inl rfl)))]
  | cons name rest => rw [segments_ofNames (by simp) h]

theorem locate_ofNames {place' : Place} (hplace : ∀ name ∈ place, IsProper name)
    (hreal : fs.IsReal place) (h : fs.locate (Path.ofNames place) = .ok place') :
    place' = place := by
  rcases way_of_lead h with ⟨_, links, hway⟩
  have hfollow := hway.follow
  rw [start_ofNames, follow_ofNames hplace _ rfl] at hfollow
  have hplace' := (way_of_follow hfollow).spelled_proper hplace hreal
  exact congrArg Standing.place hplace'

theorem locate_of_canonicalize {p q : Path} (h : fs.canonicalize p = .ok q) :
    ∃ place, fs.locate p = .ok place ∧ q = .ofNames place := by
  unfold canonicalize at h
  cases hlocate : fs.locate p with
  | error e =>
      rw [hlocate] at h
      cases h
  | ok place =>
      rw [hlocate] at h
      exact ⟨place, rfl, (Except.ok.inj h).symm⟩

theorem place_of_canonicalize (hfs : fs.HasProperPlace) {p q : Path}
    (h : fs.canonicalize p = .ok q) :
    ∃ place, q = Path.ofNames place ∧ (∀ name ∈ place, IsProper name) ∧
      ∀ place', fs.locate q = .ok place' → place' = place := by
  rcases locate_of_canonicalize h with ⟨place, hlocate, rfl⟩
  rcases proper_of_locate hfs hlocate with ⟨hproper, hreal⟩
  exact ⟨place, rfl, hproper, fun place' hplace' => locate_ofNames hproper hreal hplace'⟩

end FileSystem
end LuaBundle
