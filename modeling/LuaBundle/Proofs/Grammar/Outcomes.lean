import LuaBundle.Lua.Parser

/-!
# Where something was found

What a parser that is put together from others has found comes from what they have found.
For each way to put parsers together there is one lemma that takes such a run apart, so that
properties of what is found are proved without opening the parsers.
-/

namespace LuaBundle
namespace Lua

open LuaBundle.Lua.Parser

section Outcomes

variable {p q : Parser α} {ts rest : List Token} {a : α}

theorem run_bind (p : Parser α) (f : α → Parser β) (ts : List Token) :
    (p >>= f) ts =
      match p ts with
      | .found a rest => f a rest
      | .absent => .absent
      | .failed line => .failed line :=
  rfl

theorem run_orElse (p q : Parser α) (ts : List Token) :
    (p <|> q) ts =
      match p ts with
      | .absent => q ts
      | outcome => outcome :=
  rfl

theorem found_of_bind {f : α → Parser β} {b : β} (h : (p >>= f) ts = .found b rest) :
    ∃ a mid, p ts = .found a mid ∧ f a mid = .found b rest := by
  rw [run_bind] at h
  cases hfirst : p ts with
  | found a mid =>
      rw [hfirst] at h
      exact ⟨a, mid, rfl, h⟩
  | absent => simp [hfirst] at h
  | failed line => simp [hfirst] at h

theorem found_of_orElse (h : (p <|> q) ts = .found a rest) :
    p ts = .found a rest ∨ p ts = .absent ∧ q ts = .found a rest := by
  rw [run_orElse] at h
  cases hfirst : p ts with
  | found b mid =>
      rw [hfirst] at h
      exact Or.inl h
  | absent =>
      rw [hfirst] at h
      exact Or.inr ⟨rfl, h⟩
  | failed line => simp [hfirst] at h

theorem found_of_need (h : need p ts = .found a rest) : p ts = .found a rest := by
  unfold need at h
  split at h
  · cases h
  · exact h

theorem found_of_needOn {line : Nat} (h : needOn line p ts = .found a rest) :
    p ts = .found a rest := by
  unfold needOn at h
  split at h
  · cases h
  · exact h

theorem found_of_failHere (h : failHere p ts = .found a rest) : p ts = .found a rest := by
  unfold failHere at h
  split at h
  · cases h
  · exact h

theorem found_of_optional {o : Option α}
    (h : LuaBundle.Lua.Parser.optional p ts = .found o rest) :
    (∃ a, o = some a ∧ p ts = .found a rest) ∨ o = none ∧ p ts = .absent ∧ rest = ts := by
  unfold LuaBundle.Lua.Parser.optional at h
  cases hfirst : p ts with
  | found a mid =>
      rw [hfirst] at h
      cases h
      exact Or.inl ⟨a, rfl, rfl⟩
  | absent =>
      rw [hfirst] at h
      cases h
      exact Or.inr ⟨rfl, rfl, rfl⟩
  | failed line => simp [hfirst] at h

theorem found_of_manyIn {fuel : Nat} {as : List α} (h : manyIn p (fuel + 1) ts = .found as rest) :
    (∃ a more mid, as = a :: more ∧ p ts = .found a mid ∧
        manyIn p fuel mid = .found more rest) ∨
      as = [] ∧ p ts = .absent ∧ rest = ts := by
  unfold manyIn at h
  cases hfirst : p ts with
  | found a mid =>
      rw [hfirst] at h
      rcases found_of_bind h with ⟨more, last, hmore, hpure⟩
      cases hpure
      exact Or.inl ⟨a, more, mid, rfl, rfl, hmore⟩
  | absent =>
      rw [hfirst] at h
      cases h
      exact Or.inr ⟨rfl, rfl, rfl⟩
  | failed line => simp [hfirst] at h

theorem found_of_growIn {step : α → Parser α} {fuel : Nat} {b : α}
    (h : growIn step (fuel + 1) a ts = .found b rest) :
    (∃ c mid, step a ts = .found c mid ∧ growIn step fuel c mid = .found b rest) ∨
      b = a ∧ step a ts = .absent ∧ rest = ts := by
  unfold growIn at h
  cases hfirst : step a ts with
  | found c mid =>
      rw [hfirst] at h
      exact Or.inl ⟨c, mid, rfl, h⟩
  | absent =>
      rw [hfirst] at h
      cases h
      exact Or.inr ⟨rfl, rfl, rfl⟩
  | failed line => simp [hfirst] at h

theorem found_of_tokenIf {condition : Token → Bool} {t : Token}
    (h : tokenIf condition ts = .found t rest) : condition t = true ∧ ts = t :: rest := by
  cases ts with
  | nil => cases h
  | cons u more =>
      simp only [tokenIf] at h
      split at h
      · rename_i hcondition
        cases h
        exact ⟨hcondition, rfl⟩
      · cases h

end Outcomes

end Lua
end LuaBundle
