import LuaBundle.Merge
import Mathlib.Data.List.Induction
import Mathlib.Data.List.Nodup

/-!
# Lists without repetitions

A list merged into another adds what that one does not hold yet.  More generally, of items that
share a key only the first one is kept.
-/

namespace LuaBundle

/-!
## Merged lists
-/

theorem eraseDupsBy_concat (same : α → α → Bool) (items : List α) (a : α) :
    (items ++ [a]).eraseDupsBy same =
      if (items.eraseDupsBy same).any (same a) then items.eraseDupsBy same
      else items.eraseDupsBy same ++ [a] := by
  suffices h : ∀ seen, List.eraseDupsBy.loop same (items ++ [a]) seen =
      if (List.eraseDupsBy.loop same items seen).any (same a)
      then List.eraseDupsBy.loop same items seen
      else List.eraseDupsBy.loop same items seen ++ [a] from h []
  induction items with
  | nil =>
      intro seen
      simp only [List.nil_append, List.eraseDupsBy.loop, List.any_reverse]
      cases seen.any (same a) <;> simp
  | cons b rest ih =>
      intro seen
      simp only [List.cons_append, List.eraseDupsBy.loop]
      by_cases hb : seen.any (same b) = true
      · simp only [hb]
        exact ih seen
      · simp only [eq_false_of_ne_true hb]
        exact ih (b :: seen)

theorem addNew_nil [BEq α] (items : List α) : addNew [] items = items.eraseDups := by
  induction items using List.reverseRecOn with
  | nil => rfl
  | append_singleton items a ih =>
      rw [addNew_append, ih, addNew_cons, List.contains_eq_any_beq]
      exact (eraseDupsBy_concat _ items a).symm

/-!
## First items

The items of a list whose key no earlier item has.
-/

def firstsBy [BEq κ] (key : α → κ) (items : List α) : List α :=
  items.eraseDupsBy fun a b => key a == key b

section FirstItems

variable {α β κ : Type} [BEq κ] [LawfulBEq κ] {key : α → κ}

theorem mem_map_iff_any {items : List α} {a : α} :
    key a ∈ items.map key ↔ (items.any fun b => key a == key b) = true := by
  rw [List.any_eq_true, List.mem_map]
  refine exists_congr fun b => and_congr_right fun _ => ?_
  rw [beq_iff_eq, eq_comm]

theorem firstsBy_concat (key : α → κ) (items : List α) (a : α) :
    firstsBy key (items ++ [a]) =
      if key a ∈ (firstsBy key items).map key then firstsBy key items
      else firstsBy key items ++ [a] := by
  simp only [mem_map_iff_any]
  exact eraseDupsBy_concat _ items a

theorem mem_firstsBy_keys {items : List α} {k : κ} :
    k ∈ (firstsBy key items).map key ↔ k ∈ items.map key := by
  induction items using List.reverseRecOn with
  | nil => exact Iff.rfl
  | append_singleton items a ih =>
      rw [firstsBy_concat, List.map_append, List.mem_append, ← ih]
      split
      case isTrue hold =>
        constructor
        · exact Or.inl
        · rintro (h | h)
          · exact h
          · rw [List.mem_singleton.mp h]
            exact hold
      case isFalse => rw [List.map_append, List.mem_append]

theorem firstsBy_nodup (key : α → κ) (items : List α) :
    ((firstsBy key items).map key).Nodup := by
  induction items using List.reverseRecOn with
  | nil => exact List.nodup_nil
  | append_singleton items a ih =>
      rw [firstsBy_concat]
      split
      case isTrue => exact ih
      case isFalse hnew =>
        rw [List.map_append]
        exact List.nodup_append'.mpr ⟨ih, List.nodup_singleton _,
          List.disjoint_singleton.mpr hnew⟩

theorem nodup_eraseDups [BEq α] [LawfulBEq α] (items : List α) : items.eraseDups.Nodup := by
  have hnodup : ((firstsBy id items).map id).Nodup := firstsBy_nodup id items
  rwa [List.map_id] at hnodup

theorem mem_of_mem_firstsBy {items : List α} {a : α} (h : a ∈ firstsBy key items) : a ∈ items := by
  induction items using List.reverseRecOn with
  | nil => exact h
  | append_singleton items b ih =>
      rw [firstsBy_concat] at h
      split at h
      · exact List.mem_append_left _ (ih h)
      · rcases List.mem_append.mp h with h | h
        · exact List.mem_append_left _ (ih h)
        · exact List.mem_append_right _ h

theorem firstsBy_filter {keep : α → Bool} (hkeep : ∀ a b, key a = key b → keep a = keep b)
    (items : List α) : (firstsBy key items).filter keep = firstsBy key (items.filter keep) := by
  induction items using List.reverseRecOn with
  | nil => rfl
  | append_singleton items a ih =>
      rw [firstsBy_concat, List.filter_append, apply_ite (List.filter keep), List.filter_append]
      cases ha : keep a with
      | false => simp [ha, ih]
      | true =>
          have hmem : key a ∈ (firstsBy key items).map key ↔
              key a ∈ (firstsBy key (items.filter keep)).map key := by
            rw [mem_firstsBy_keys, mem_firstsBy_keys]
            simp only [List.mem_map, List.mem_filter]
            constructor
            · rintro ⟨b, hb, hkey⟩
              exact ⟨b, ⟨hb, (hkeep b a hkey).trans ha⟩, hkey⟩
            · rintro ⟨b, ⟨hb, _⟩, hkey⟩
              exact ⟨b, hb, hkey⟩
          rw [List.filter_cons_of_pos ha, List.filter_nil, firstsBy_concat, ih]
          simp only [hmem]

theorem firstsBy_map {κ' : Type} [BEq κ'] [LawfulBEq κ'] {f : α → β} {key' : β → κ'}
    {items : List α}
    (h : ∀ a ∈ items, ∀ b ∈ items, key' (f a) = key' (f b) ↔ key a = key b) :
    (firstsBy key items).map f = firstsBy key' (items.map f) := by
  induction items using List.reverseRecOn with
  | nil => rfl
  | append_singleton items a ih =>
      have hitems := ih fun b hb c hc =>
        h b (List.mem_append_left _ hb) c (List.mem_append_left _ hc)
      have hmem : key' (f a) ∈ (items.map f).map key' ↔ key a ∈ items.map key := by
        simp only [List.mem_map, exists_exists_and_eq_and]
        refine exists_congr fun b => and_congr_right fun hb => ?_
        exact h b (List.mem_append_left _ hb) a (List.mem_append_right _ List.mem_cons_self)
      simp only [List.map_append, List.map_cons, List.map_nil, firstsBy_concat,
        mem_firstsBy_keys, hmem]
      split
      · exact hitems
      · rw [List.map_append, hitems]
        rfl

end FirstItems

end LuaBundle
