import LuaBundle.Proofs.Project.Search
import Mathlib.Logic.Relation

/-!
# Depth-first order

The order in which a depth-first walk meets scripts for the first time.  What is still to be
met stands in a row; the scripts that a new script leads to come before the rest of it.  Two
scripts are the same when their paths are.
-/

namespace LuaBundle

/-- The scripts that a walk of a row meets for the first time, in order, when the paths of
others have been seen before. -/
inductive Preorder (next : Location → List Location) :
    List Path → List Location → List Location → Prop where
  | done (seen : List Path) : Preorder next seen [] []
  | again {seen script todo met} (hseen : ∃ p ∈ seen, (script.path == p) = true)
      (hrest : Preorder next seen todo met) : Preorder next seen (script :: todo) met
  | enter {seen script todo met} (hnew : ∀ p ∈ seen, (script.path == p) = false)
      (hrest : Preorder next (seen ++ [script.path]) (next script ++ todo) met) :
      Preorder next seen (script :: todo) (script :: met)

section Preorder

variable {next : Location → List Location} {seen : List Path} {todo met : List Location}

theorem Preorder.unique {met' : List Location} (h : Preorder next seen todo met)
    (h' : Preorder next seen todo met') : met = met' := by
  induction h generalizing met' with
  | done seen =>
      cases h'
      rfl
  | again hseen _ ih =>
      cases h' with
      | again _ hrest => exact ih hrest
      | enter hnew _ =>
          rcases hseen with ⟨p, hp, heq⟩
          rw [hnew p hp] at heq
          cases heq
  | enter hnew _ ih =>
      cases h' with
      | again hseen _ =>
          rcases hseen with ⟨p, hp, heq⟩
          rw [hnew p hp] at heq
          cases heq
      | enter _ hrest => rw [ih hrest]

theorem Preorder.distinct (h : Preorder next seen todo met) :
    (∀ script ∈ met, ∀ p ∈ seen, (script.path == p) = false) ∧
      met.Pairwise fun s t => (t.path == s.path) = false := by
  induction h with
  | done seen => exact ⟨by simp, List.Pairwise.nil⟩
  | again _ _ ih => exact ih
  | enter hnew _ ih =>
      rcases ih with ⟨hmet, hpairs⟩
      constructor
      · intro t ht p hp
        rcases List.mem_cons.mp ht with rfl | ht
        · exact hnew p hp
        · exact hmet t ht p (by simp [hp])
      · exact List.pairwise_cons.mpr ⟨fun t ht => hmet t ht _ (by simp), hpairs⟩

def Covered (seen : List Path) (met : List Location) (script : Location) : Prop :=
  (∃ p ∈ seen, (script.path == p) = true) ∨ ∃ t ∈ met, (script.path == t.path) = true

theorem Covered.enter {script t : Location} (h : Covered (seen ++ [t.path]) met script) :
    Covered seen (t :: met) script := by
  rcases h with ⟨p, hp, heq⟩ | ⟨u, hu, heq⟩
  · rcases List.mem_append.mp hp with hp | hp
    · exact Or.inl ⟨p, hp, heq⟩
    · rw [List.mem_singleton.mp hp] at heq
      exact Or.inr ⟨t, by simp, heq⟩
  · exact Or.inr ⟨u, by simp [hu], heq⟩

/-- Everything in the row is seen or met, and so is everything that a met script leads to. -/
theorem Preorder.covers (h : Preorder next seen todo met) :
    (∀ script ∈ todo, Covered seen met script) ∧
      ∀ t ∈ met, ∀ script ∈ next t, Covered seen met script := by
  induction h with
  | done seen => exact ⟨by simp, by simp⟩
  | again hseen _ ih =>
      refine ⟨?_, ih.2⟩
      intro t ht
      rcases List.mem_cons.mp ht with rfl | ht
      · exact Or.inl hseen
      · exact ih.1 t ht
  | @enter seen script todo met hnew hrest ih =>
      constructor
      · intro t ht
        rcases List.mem_cons.mp ht with rfl | ht
        · exact Or.inr ⟨t, by simp, BEq.rfl⟩
        · exact (ih.1 t (by simp [ht])).enter
      · intro t ht u hu
        rcases List.mem_cons.mp ht with rfl | ht
        · exact (ih.1 u (by simp [hu])).enter
        · exact (ih.2 t ht u hu).enter

/-- A step from a script to one that it leads to and that is met. -/
def Leads (next : Location → List Location) (met : List Location) (s t : Location) : Prop :=
  t ∈ next s ∧ t ∈ met

/-- To every script that is met, a chain of met scripts leads from the row. -/
theorem Preorder.reached (h : Preorder next seen todo met) :
    ∀ t ∈ met, ∃ s ∈ todo, s ∈ met ∧ Relation.ReflTransGen (Leads next met) s t := by
  induction h with
  | done seen => simp
  | again _ _ ih =>
      intro t ht
      rcases ih t ht with ⟨s, hs, hmet, hchain⟩
      exact ⟨s, by simp [hs], hmet, hchain⟩
  | @enter seen script todo met hnew hrest ih =>
      intro t ht
      rcases List.mem_cons.mp ht with rfl | ht
      · exact ⟨t, by simp, by simp, .refl⟩
      · rcases ih t ht with ⟨s, hs, hmet, hchain⟩
        have hchain : Relation.ReflTransGen (Leads next (script :: met)) s t :=
          hchain.lift id fun a b hab => ⟨hab.1, by simp [hab.2]⟩
        rcases List.mem_append.mp hs with hs | hs
        · exact ⟨script, by simp, by simp, hchain.head ⟨hs, by simp [hmet]⟩⟩
        · exact ⟨s, by simp [hs], by simp [hmet], hchain⟩

end Preorder

end LuaBundle
