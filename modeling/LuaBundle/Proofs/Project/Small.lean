import LuaBundle.Proofs.FileSystem.Moved

/-!
# Small projects

In a project without long paths, whose manifests name their scripts by short names, nothing that
can be looked up about a directory is too long under any spelling.  What is known about the
directories of such a project is what a search would read.
-/

namespace LuaBundle

open FileSystem

/-!
## Main scripts
-/

def manifestMain? (content : Text.Bytes) : Option Path :=
  ((Text.ofUtf8? content).bind (Manifest.ofText? ⟨""⟩)).bind fun manifest =>
    manifest.build.bind BuildOptions.main

theorem content_of_manifest {fs : FileSystem} {directory : Path} {manifest : Manifest}
    (h : Manifest.read fs directory = .ok (some manifest)) :
    ∃ content, fs.read (directory.join manifestName) = .ok content ∧
      manifestMain? content = manifest.build.bind BuildOptions.main := by
  unfold Manifest.read readText at h
  cases hread : fs.read (directory.join manifestName) with
  | error e =>
    simp only [hread, Except.map] at h
    cases e <;> cases h
  | ok content =>
    refine ⟨content, rfl, ?_⟩
    cases htext : Text.ofUtf8? content with
    | none =>
      simp only [hread, Except.map, htext] at h
      cases h
    | some text =>
      cases hmanifest : Manifest.ofText? directory text with
      | none =>
        simp only [hread, Except.map, htext, hmanifest] at h
        cases h
      | some found =>
        simp only [hread, Except.map, htext, hmanifest] at h
        cases h
        rw [manifestMain?, htext, Option.bind_some, ofText_directory directory, hmanifest]
        rfl

/-!
## Short paths
-/

def Entry.content? : Entry → Option Text.Bytes
  | .file content => some content
  | .directory => none

/-- Whether no place of a file system has a long path, and no file is a manifest that names a
main script by a longer name than its own. -/
structure FileSystem.IsSmall (fs : FileSystem) : Prop where
  places : ∀ e ∈ fs.entries, IsShort (.ofNames e.1)
  mains : ∀ e ∈ fs.entries, ∀ content ∈ e.2.content?, ∀ main ∈ manifestMain? content,
    main.spelling.utf8ByteSize ≤ manifestName.spelling.utf8ByteSize

instance (fs : FileSystem) : Decidable fs.IsSmall :=
  decidable_of_iff ((∀ e ∈ fs.entries, IsShort (.ofNames e.1)) ∧
      ∀ e ∈ fs.entries, ∀ content ∈ e.2.content?, ∀ main ∈ manifestMain? content,
        main.spelling.utf8ByteSize ≤ manifestName.spelling.utf8ByteSize)
    ⟨fun h => ⟨h.1, h.2⟩, fun h => ⟨h.places, h.mains⟩⟩

theorem isShort_join {d p q : Path} (hq : q.isAbsolute = false)
    (hle : p.spelling.utf8ByteSize ≤ q.spelling.utf8ByteSize) (h : IsShort (d.join q)) :
    IsShort (d.join p) := by
  cases hp : p.isAbsolute with
  | true =>
    rw [join_of_absolute hp]
    exact Nat.lt_of_le_of_lt (Nat.le_trans hle (size_le_join hq).2) h
  | false =>
    refine Nat.lt_of_le_of_lt ?_ h
    unfold Path.join
    rw [hp, hq, if_neg Bool.false_ne_true, if_neg Bool.false_ne_true]
    split
    · exact hle
    · simpa only [String.utf8ByteSize_append] using Nat.add_le_add_left hle _
    · simpa only [String.utf8ByteSize_append] using Nat.add_le_add_left hle _

theorem FileSystem.IsReached.there {fs : FileSystem} {place : Place} (h : fs.IsReached place) :
    (fs.entry? place).isSome = true := by
  rcases List.eq_nil_or_concat place with rfl | ⟨above, last, hplace⟩
  · rfl
  · rw [List.concat_eq_append] at hplace
    subst hplace
    have habove := h.above.reached 0
    have hnames := h.reached 0
    rw [List.dropLast_concat] at habove
    rw [follow_append, habove] at hnames
    cases way_of_follow hnames with
    | step hturn hmore =>
      cases hmore
      have hturns := turns_of_turn hturn
      generalize hnext : above ++ [last] = next at hturns
      have hlonger : next.length = above.length + 1 := by simp [← hnext]
      cases hturns with
      | stay _ => omega
      | up => simp at hlonger
      | down _ _ _ _ hthere => simpa using hthere

section Small

variable {fs : FileSystem} (hfs : fs.HasWorkingDirectory) (hsmall : fs.IsSmall)
include hfs hsmall

theorem isShort_of_canonicalize {p path : Path} (h : fs.canonicalize p = .ok path) :
    IsShort path := by
  obtain ⟨place, hlocate, rfl⟩ := locate_of_canonicalize h
  have hthere := (isReached_of_locate hfs hlocate).there
  cases place with
  | nil => decide
  | cons name rest =>
    obtain ⟨entry, hentry⟩ := Option.isSome_iff_exists.mp hthere
    obtain ⟨place', hmem, hsame⟩ := mem_of_lookup hentry
    rw [eq_of_beq hsame]
    exact hsmall.places _ hmem

/-- Whatever is looked up about a directory that can be read is short enough. -/
theorem isShortAt_of_read {d : Path} {name : String} {found : Option Package}
    (hread : Package.read fs name d = .ok found) : fs.IsShortAt d := by
  have hshort : IsShort (d.join manifestName) := by
    by_contra hlong
    obtain ⟨e, he⟩ := @package_read_of_long fs d name hlong
    rw [he] at hread
    cases hread
  refine ⟨hshort, ?_⟩
  intro answer hanswer manifest hmanifest main hmain
  have hfound : Manifest.read fs d = .ok (some manifest) := by
    cases hmanifest
    cases hrun : Manifest.read fs d with
    | error e =>
      rw [hrun] at hanswer
      cases hanswer
    | ok answer' =>
      rw [hrun] at hanswer
      cases hanswer
      rfl
  have hdirectory := (manifest_read_congr BEq.rfl hshort hshort hfound).1 manifest rfl
  obtain ⟨content, hcontent, hnamed⟩ := content_of_manifest hfound
  obtain ⟨place, _, hentry⟩ := file_of_read hcontent
  rw [main_directory, hdirectory] at hmain
  obtain ⟨named, hmember, rfl⟩ := Option.map_eq_some_iff.mp hmain
  constructor
  · cases place with
    | nil => cases hentry
    | cons first rest =>
      obtain ⟨place', hmem, _⟩ := mem_of_lookup hentry
      apply isShort_join (by decide) _ hshort
      exact hsmall.mains _ hmem content rfl named (by rw [hnamed]; exact hmember)
  · intro path hpath
    cases hcanonical : fs.canonicalize (d.join named) with
    | error e =>
      rw [hcanonical] at hpath
      cases hpath
    | ok path' =>
      rw [hcanonical] at hpath
      cases hpath
      exact isShort_of_canonicalize hfs hsmall hcanonical

theorem isRead_of_isSound {known : Known} (hknown : Known.IsSound fs known) :
    Known.IsRead fs known := by
  intro entry hentry
  obtain ⟨name, hread⟩ := hknown entry hentry
  exact ⟨isShortAt_of_read hfs hsmall hread, name, hread⟩

end Small

end LuaBundle
