import LuaBundle.Proofs.FileSystem.Moved
import Mathlib.Data.List.Infix

/-!
# Trees laid out under a root

A file system with nothing in it but a tree and the directories that lead to its root.  The
same tree can be laid out under any root.
-/

namespace LuaBundle

def laidOut (root : Place) (tree : List (Place × Entry)) : FileSystem where
  entries := (root.inits.tail.map fun place => (place, .directory)) ++
    tree.map fun e => (root ++ e.1, e.2)
  here := root

namespace FileSystem

structure IsLayable (root : Place) : Prop where
  nonempty : root ≠ []
  proper : ∀ name ∈ root, IsProper name
  plain : ∀ name ∈ root, '\x00' ∉ name.toList
  short : ∀ name ∈ root, name.utf8ByteSize ≤ maxName

instance (name : String) : Decidable (IsProper name) :=
  inferInstanceAs (Decidable (_ ∧ _ ∧ _ ∧ _))

instance (root : Place) : Decidable (IsLayable root) :=
  decidable_of_iff (root ≠ [] ∧ (∀ name ∈ root, IsProper name) ∧
      (∀ name ∈ root, '\x00' ∉ name.toList) ∧ ∀ name ∈ root, name.utf8ByteSize ≤ maxName)
    ⟨fun ⟨h, h', h'', h'''⟩ => ⟨h, h', h'', h'''⟩,
      fun h => ⟨h.nonempty, h.proper, h.plain, h.short⟩⟩

section LaidOut

variable {root : Place} {tree : List (Place × Entry)}

theorem lookup_map_prefix (names : Place) :
    (tree.map fun e => (root ++ e.1, e.2)).lookup (root ++ names) = tree.lookup names := by
  induction tree with
  | nil => rfl
  | cons e rest ih =>
    have hkey : (root ++ names == root ++ e.1) = (names == e.1) := by
      rw [Bool.eq_iff_iff, beq_iff_eq, beq_iff_eq, List.append_cancel_left_eq]
    rw [List.map_cons, List.lookup_cons, List.lookup_cons, hkey, ih]

theorem lookup_directories {places : List Place} {place : Place} :
    (places.map fun place => (place, Entry.directory)).lookup place =
      if place ∈ places then some .directory else none := by
  induction places with
  | nil => rfl
  | cons first rest ih =>
    rw [List.map_cons, List.lookup_cons, ih]
    by_cases h : place = first
    · simp [h]
    · simp [h, beq_false_of_ne h]

theorem mem_tail_inits {place : Place} (hne : place ≠ []) :
    place ∈ root.inits.tail ↔ place <+: root := by
  rw [← List.mem_inits]
  cases root with
  | nil => simp [hne]
  | cons name rest => simp [hne]

theorem entry_laidOut {place : Place} (hne : place ≠ []) :
    FileSystem.entry? (laidOut root tree) place =
      if place <+: root then some .directory
      else (tree.map fun e => (root ++ e.1, e.2)).lookup place := by
  have hentry : FileSystem.entry? (laidOut root tree) place =
      (laidOut root tree).entries.lookup place := by
    cases place with
    | nil => exact absurd rfl hne
    | cons name rest => rfl
  rw [hentry, laidOut, List.lookup_append, lookup_directories]
  by_cases h : place <+: root
  · rw [if_pos h, if_pos ((mem_tail_inits hne).mpr h)]
    rfl
  · rw [if_neg h, if_neg (fun hmem => h ((mem_tail_inits hne).mp hmem))]
    rfl

theorem entry_laidOut_above {place : Place} (h : place <+: root) :
    FileSystem.entry? (laidOut root tree) place = some .directory := by
  cases place with
  | nil => rfl
  | cons name rest => rw [entry_laidOut (List.cons_ne_nil _ _), if_pos h]

theorem entry_laidOut_below (hroot : root ≠ []) (names : Place) :
    FileSystem.entry? (laidOut root tree) (root ++ names) =
      if names = [] then some .directory else tree.lookup names := by
  by_cases h : names = []
  · rw [if_pos h, h, List.append_nil]
    exact entry_laidOut_above List.prefix_rfl
  · have hlonger : ¬root ++ names <+: root := by
      intro hstarts
      have hlength := hstarts.length_le
      rw [List.length_append] at hlength
      exact h (List.length_eq_zero_iff.mp (by omega))
    rw [if_neg h, entry_laidOut (by simp [hroot]), if_neg hlonger, lookup_map_prefix]

theorem follow_laidOut (hroot : IsLayable root) (links : Nat) {front rest : Place}
    (h : front ++ rest = root) :
    (laidOut root tree).follow false ⟨front, links⟩ rest = .ok ⟨root, links⟩ := by
  induction rest generalizing front with
  | nil =>
    rw [List.append_nil] at h
    rw [h, follow_nil]
  | cons s rest ih =>
    have hmem : s ∈ root := by
      rw [← h]
      simp
    obtain ⟨hempty, hpoint, hparent, _⟩ := hroot.proper s hmem
    have hshort := hroot.short s hmem
    have hnext : front ++ [s] ++ rest = root := by
      rw [List.append_assoc]
      exact h
    have hturn : (laidOut root tree).turn false front s = .ok (.place (front ++ [s])) := by
      refine turn_of_turns (entry_laidOut_above ⟨s :: rest, h⟩) (.down (not_or.mpr ⟨hempty, hpoint⟩)
        hparent (Nat.not_lt.mpr hshort) (link_of_no_links rfl _) ?_)
      rw [entry_laidOut_above ⟨rest, hnext⟩]
      rfl
    rw [follow_of_place hturn]
    exact ih hnext

theorem isRoot_laidOut (hroot : IsLayable root) : (laidOut root tree).IsRoot root where
  proper := hroot.proper
  plain := hroot.plain
  real := isReal_of_no_links rfl root
  reached links := follow_laidOut hroot links rfl
  directory := entry_laidOut_above List.prefix_rfl
  below := hroot.nonempty

theorem sameTree_laidOut {root' : Place} (hroot : IsLayable root) (hroot' : IsLayable root')
    (tree : List (Place × Entry)) :
    SameTree (laidOut root tree) (laidOut root' tree) root root' where
  root := isRoot_laidOut hroot
  root' := isRoot_laidOut hroot'
  same names := by
    rw [entry_laidOut_below hroot.nonempty, entry_laidOut_below hroot'.nonempty]
  free names := link_of_no_links rfl _
  free' names := link_of_no_links rfl _

theorem hasProperPlace_laidOut (hroot : IsLayable root) (tree : List (Place × Entry)) :
    (laidOut root tree).HasProperPlace :=
  ⟨hroot.proper, isReal_of_no_links rfl root⟩

theorem mem_of_entry_laidOut {place : Place} {content : Text.Bytes}
    (h : FileSystem.entry? (laidOut root tree) place = some (.file content)) :
    ∃ names, (names, .file content) ∈ tree := by
  by_cases hne : place = []
  · rw [hne] at h
    cases h
  · rw [entry_laidOut hne] at h
    split at h
    · cases h
    · obtain ⟨place', hmem, _⟩ := mem_of_lookup h
      obtain ⟨e, he, heq⟩ := List.mem_map.mp hmem
      rw [Prod.mk.injEq] at heq
      exact ⟨e.1, by rw [← heq.2]; exact he⟩

theorem mem_of_read_laidOut {path : Path} {content : Text.Bytes}
    (h : (laidOut root tree).read path = .ok content) : ∃ names, (names, .file content) ∈ tree := by
  obtain ⟨place, _, hentry⟩ := file_of_read h
  exact mem_of_entry_laidOut hentry

end LaidOut

end FileSystem

end LuaBundle
