import LuaBundle.Proofs.Bundle.Histories
import Mathlib.Data.List.Sort
import Mathlib.Logic.Relation

/-!
# Cycles of a graph

A visit gathers the positions that edges lead to.  The scripts on cycles are listed in their
classes, whichever way the strongly connected components were found.
-/

namespace LuaBundle

/-!
## Orders
-/

/-- An order of which any two items are part, and which tells them apart. -/
structure IsOrder (le : α → α → Bool) : Prop where
  total (a b : α) : (le a b || le b a) = true
  trans (a b c : α) : le a b = true → le b c = true → le a c = true
  antisymm (a b : α) : le a b = true → le b a = true → a = b

theorem IsOrder.sorted {α κ : Type} {le : κ → κ → Bool} (h : IsOrder le) (key : α → κ)
    (items : List α) :
    (items.mergeSort fun a b => le (key a) (key b)).Pairwise fun a b =>
      le (key a) (key b) = true :=
  List.pairwise_mergeSort (fun a b c => h.trans (key a) (key b) (key c))
    (fun a b => h.total (key a) (key b)) items

namespace Path

theorem isOrder_listLe [DecidableEq α] {le : α → α → Bool} (h : IsOrder le) :
    IsOrder (listLe le) where
  total as bs := by
    induction as generalizing bs with
    | nil => rfl
    | cons a as ih =>
        cases bs with
        | nil => rfl
        | cons b bs =>
            by_cases hab : a = b
            · simpa [listLe, hab] using ih bs
            · simpa [listLe, hab, Ne.symm hab] using h.total a b
  trans as bs cs hab hbc := by
    induction as generalizing bs cs with
    | nil => rfl
    | cons a as ih =>
        cases bs with
        | nil => cases hab
        | cons b bs =>
            cases cs with
            | nil => cases hbc
            | cons c cs =>
                rw [listLe] at hab hbc ⊢
                by_cases h₁ : a = b <;> by_cases h₂ : b = c
                · subst h₁ h₂
                  rw [if_pos rfl] at hab hbc ⊢
                  exact ih bs cs hab hbc
                · subst h₁
                  rw [if_neg h₂] at hbc ⊢
                  exact hbc
                · subst h₂
                  rw [if_neg h₁] at hab ⊢
                  exact hab
                · rw [if_neg h₁] at hab
                  rw [if_neg h₂] at hbc
                  have hne : a ≠ c := by
                    rintro rfl
                    exact h₁ (h.antisymm a b hab hbc)
                  rw [if_neg hne]
                  exact h.trans a b c hab hbc
  antisymm as bs hab hba := by
    induction as generalizing bs with
    | nil =>
        cases bs with
        | nil => rfl
        | cons b bs => cases hba
    | cons a as ih =>
        cases bs with
        | nil => cases hab
        | cons b bs =>
            rw [listLe] at hab hba
            by_cases h₁ : a = b
            · subst h₁
              rw [if_pos rfl] at hab hba
              rw [ih bs hab hba]
            · rw [if_neg h₁] at hab
              rw [if_neg (Ne.symm h₁)] at hba
              exact absurd (h.antisymm a b hab hba) h₁

theorem normal_le {a b : String} :
    Component.le (.normal a) (.normal b) = true ↔ a ≤ b :=
  decide_eq_true_iff

theorem isOrder_component : IsOrder Component.le where
  total a b := by
    rcases a with _ | _ | _ | a <;> rcases b with _ | _ | _ | b <;> try rfl
    simpa only [Bool.or_eq_true, normal_le] using String.le_total a b
  trans a b c hab hbc := by
    rcases a with _ | _ | _ | a <;> rcases b with _ | _ | _ | b <;>
      rcases c with _ | _ | _ | c <;>
        first
        | rfl
        | exact absurd hab Bool.false_ne_true
        | exact absurd hbc Bool.false_ne_true
        | exact normal_le.mpr (String.le_trans (normal_le.mp hab) (normal_le.mp hbc))
  antisymm a b hab hba := by
    rcases a with _ | _ | _ | a <;> rcases b with _ | _ | _ | b <;>
      first
      | rfl
      | exact absurd hab Bool.false_ne_true
      | exact absurd hba Bool.false_ne_true
      | exact congrArg _ (String.le_antisymm (normal_le.mp hab) (normal_le.mp hba))

theorem isOrder_components : IsOrder listComponentLe :=
  isOrder_listLe isOrder_component

theorem isOrder_rows : IsOrder (listLe listComponentLe) :=
  isOrder_listLe isOrder_components

end Path

namespace RequireGraph

variable {g : RequireGraph}

/-!
## Reaching
-/

def Reaches (g : RequireGraph) : Nat → Nat → Prop :=
  Relation.TransGen g.Joins

theorem mem_targets {i j : Nat} : j ∈ g.targets i ↔ g.Joins i j := by
  simp only [targets, List.mem_map, List.mem_filter, beq_iff_eq, Joins]
  constructor
  · rintro ⟨⟨_, _, line⟩, ⟨hmem, rfl⟩, rfl⟩
    exact ⟨line, hmem⟩
  · rintro ⟨line, hmem⟩
    exact ⟨_, ⟨hmem, rfl⟩, rfl⟩

/-- The number of edges from positions not seen yet. -/
def unseenEdges (g : RequireGraph) (seen : List Nat) : Nat :=
  g.edges.countP fun e => !seen.contains e.source

theorem unseenEdges_cons {seen : List Nat} {i : Nat} (h : i ∉ seen) :
    g.unseenEdges (i :: seen) + (g.targets i).length = g.unseenEdges seen := by
  rw [targets, List.length_map, ← List.countP_eq_length_filter, unseenEdges, unseenEdges]
  induction g.edges with
  | nil => rfl
  | cons e rest ih =>
      have hone : (if (!(i :: seen).contains e.source) = true then 1 else 0) +
          (if (e.source == i) = true then 1 else 0) =
            if (!seen.contains e.source) = true then 1 else 0 := by
        by_cases he : e.source = i
        · simp [he, h]
        · simp [he]
      rw [List.countP_cons, List.countP_cons, List.countP_cons]
      omega

/-- A visit with enough fuel keeps what it has seen, sees what it had to, and leaves nothing
out that an edge leads to. -/
theorem visit_closed {fuel : Nat} {todo seen : List Nat}
    (hfuel : todo.length + g.unseenEdges seen ≤ fuel)
    (hseen : ∀ k ∈ seen, ∀ t, g.Joins k t → t ∈ seen ∨ t ∈ todo) :
    (∀ k ∈ seen, k ∈ g.visit fuel todo seen) ∧ (∀ k ∈ todo, k ∈ g.visit fuel todo seen) ∧
      ∀ k ∈ g.visit fuel todo seen, ∀ t, g.Joins k t → t ∈ g.visit fuel todo seen := by
  induction fuel generalizing todo seen with
  | zero =>
      cases todo with
      | cons i rest => simp at hfuel
      | nil =>
          refine ⟨fun k hk => hk, nofun, fun k hk t ht => ?_⟩
          exact (hseen k hk t ht).resolve_right (List.not_mem_nil)
  | succ fuel ih =>
      cases todo with
      | nil =>
          refine ⟨fun k hk => hk, nofun, fun k hk t ht => ?_⟩
          exact (hseen k hk t ht).resolve_right (List.not_mem_nil)
      | cons i rest =>
          rw [visit]
          rw [List.length_cons] at hfuel
          split
          case isTrue hi =>
            have hi := List.contains_iff_mem.mp hi
            have hrest : ∀ k ∈ seen, ∀ t, g.Joins k t → t ∈ seen ∨ t ∈ rest := by
              intro k hk t ht
              rcases hseen k hk t ht with h | h
              · exact Or.inl h
              · rcases List.mem_cons.mp h with rfl | h
                · exact Or.inl hi
                · exact Or.inr h
            rcases ih (by omega) hrest with ⟨hkeep, htodo, hclosed⟩
            refine ⟨hkeep, fun k hk => ?_, hclosed⟩
            rcases List.mem_cons.mp hk with rfl | hk
            · exact hkeep k hi
            · exact htodo k hk
          case isFalse hi =>
            have hi : i ∉ seen := fun h => hi (List.contains_iff_mem.mpr h)
            have hcount := g.unseenEdges_cons hi
            have hrest : ∀ k ∈ i :: seen, ∀ t, g.Joins k t →
                t ∈ i :: seen ∨ t ∈ g.targets i ++ rest := by
              intro k hk t ht
              rcases List.mem_cons.mp hk with rfl | hk
              · exact Or.inr (List.mem_append_left _ (mem_targets.mpr ht))
              · rcases hseen k hk t ht with h | h
                · exact Or.inl (List.mem_cons_of_mem _ h)
                · rcases List.mem_cons.mp h with rfl | h
                  · exact Or.inl List.mem_cons_self
                  · exact Or.inr (List.mem_append_right _ h)
            rcases ih (by rw [List.length_append]; omega) hrest with ⟨hkeep, htodo, hclosed⟩
            refine ⟨fun k hk => hkeep k (List.mem_cons_of_mem _ hk), fun k hk => ?_, hclosed⟩
            rcases List.mem_cons.mp hk with rfl | hk
            · exact hkeep k List.mem_cons_self
            · exact htodo k (List.mem_append_right _ hk)

theorem visit_sound {fuel : Nat} {todo seen : List Nat} {j : Nat}
    (h : j ∈ g.visit fuel todo seen) :
    j ∈ seen ∨ ∃ t ∈ todo, Relation.ReflTransGen g.Joins t j := by
  induction fuel generalizing todo seen with
  | zero => exact Or.inl h
  | succ fuel ih =>
      cases todo with
      | nil => exact Or.inl h
      | cons i rest =>
          rw [visit] at h
          split at h
          case isTrue =>
            rcases ih h with h | ⟨t, ht, hreach⟩
            · exact Or.inl h
            · exact Or.inr ⟨t, List.mem_cons_of_mem _ ht, hreach⟩
          case isFalse =>
            rcases ih h with h | ⟨t, ht, hreach⟩
            · rcases List.mem_cons.mp h with rfl | h
              · exact Or.inr ⟨j, List.mem_cons_self, .refl⟩
              · exact Or.inl h
            · rcases List.mem_append.mp ht with ht | ht
              · exact Or.inr ⟨i, List.mem_cons_self, .head (mem_targets.mp ht) hreach⟩
              · exact Or.inr ⟨t, List.mem_cons_of_mem _ ht, hreach⟩

theorem mem_after {i j : Nat} : j ∈ g.after i ↔ g.Reaches i j := by
  constructor
  · intro h
    rcases visit_sound h with h | ⟨t, ht, hreach⟩
    · cases h
    · exact .head' (mem_targets.mp ht) hreach
  · have hfuel : (g.targets i).length + g.unseenEdges [] ≤ 2 * g.edges.length + 1 := by
      have htargets : (g.targets i).length ≤ g.edges.length := by
        rw [targets, List.length_map]
        exact List.length_filter_le _ _
      have hedges : g.unseenEdges [] ≤ g.edges.length := List.countP_le_length
      omega
    rcases visit_closed hfuel (by simp) with ⟨_, htodo, hclosed⟩
    intro h
    induction h with
    | single hstep => exact htodo _ (mem_targets.mpr hstep)
    | tail _ hstep ih => exact hclosed _ ih _ hstep

def CycleThrough (g : RequireGraph) (i j : Nat) : Prop :=
  g.Reaches i j ∧ g.Reaches j i

theorem mem_classOf {i j : Nat} : j ∈ g.classOf i ↔ g.CycleThrough i j := by
  rw [classOf, List.mem_filter, List.contains_iff_mem, mem_after, mem_after, CycleThrough]

end RequireGraph

end LuaBundle
