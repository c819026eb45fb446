/-!
# Merging optional values

Two layers that may each give a value are merged: the first wins.  Two lists are joined,
the first in front, without the items that the result holds already.
-/

namespace LuaBundle

def addNew [BEq α] (known : List α) (items : List α) : List α :=
  items.foldl (fun known item => if known.contains item then known else known ++ [item]) known

def merge : Option α → Option α → Option α
  | some a, _ => some a
  | none, b => b

def mergeLists [BEq α] : Option (List α) → Option (List α) → Option (List α)
  | some a, some b => some (addNew a b)
  | some a, none => some a
  | none, b => b

/-!
## Joined lists
-/

theorem addNew_cons [BEq α] (known : List α) (item : α) (rest : List α) :
    addNew known (item :: rest) =
      addNew (if known.contains item then known else known ++ [item]) rest :=
  rfl

theorem addNew_append [BEq α] (known front back : List α) :
    addNew known (front ++ back) = addNew (addNew known front) back :=
  List.foldl_append

theorem contains_addNew [BEq α] [EquivBEq α] (known items : List α) (a : α) :
    (addNew known items).contains a = (known.contains a || items.contains a) := by
  induction items generalizing known with
  | nil => simp [addNew]
  | cons item rest ih =>
      rw [addNew_cons, ih, List.contains_cons]
      split
      case isTrue hknown =>
          -- What equals a dropped item is held already.
          cases heq : a == item with
          | true => rw [List.contains_congr heq, hknown, Bool.true_or, Bool.true_or]
          | false => rw [Bool.false_or]
      case isFalse =>
          rw [List.contains_append, List.contains_cons, List.contains_nil, Bool.or_false,
            Bool.or_assoc]

theorem mem_addNew [BEq α] [LawfulBEq α] {known items : List α} {a : α} :
    a ∈ addNew known items ↔ a ∈ known ∨ a ∈ items := by
  rw [← List.contains_iff_mem, contains_addNew, Bool.or_eq_true, List.contains_iff_mem,
    List.contains_iff_mem]

theorem addNew_addNew [BEq α] [EquivBEq α] (known seen items : List α) :
    addNew known (addNew seen items) = addNew (addNew known seen) items := by
  induction items generalizing seen with
  | nil => rfl
  | cons item rest ih =>
      rw [addNew_cons, addNew_cons, ih]
      congr 1
      split
      · rename_i hseen
        rw [contains_addNew, hseen, Bool.or_true, if_pos rfl]
      · rw [addNew_append]
        rfl

theorem addNew_flatMap [BEq α] [LawfulBEq α] (known : List α) (lists : List (List α)) :
    addNew known (lists.flatMap (addNew [])) = addNew known lists.flatten := by
  induction lists generalizing known with
  | nil => rfl
  | cons list rest ih =>
      rw [List.flatMap_cons, List.flatten_cons, addNew_append, addNew_append, addNew_addNew, ih]
      rfl

theorem filter_addNew [BEq α] [LawfulBEq α] (keep : α → Bool) (known items : List α) :
    (addNew known items).filter keep = addNew (known.filter keep) (items.filter keep) := by
  induction items generalizing known with
  | nil => rfl
  | cons item rest ih =>
      rw [addNew_cons, ih]
      cases hkeep : keep item with
      | false =>
          rw [List.filter_cons_of_neg (by simp [hkeep])]
          congr 1
          split <;> simp [hkeep]
      | true =>
          rw [List.filter_cons_of_pos hkeep]
          have hcontains : (known.filter keep).contains item = known.contains item := by
            rw [Bool.eq_iff_iff, List.contains_iff_mem, List.contains_iff_mem, List.mem_filter]
            exact ⟨fun h => h.1, fun h => ⟨h, hkeep⟩⟩
          rw [addNew_cons, hcontains]
          congr 1
          split <;> simp [hkeep]

end LuaBundle
