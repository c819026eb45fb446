import LuaBundle.Text.Utf8

/-!
# Slices of joined texts

Bytes are counted for every part of a text by itself, so a slice between the ends of two parts
is what stands between them.
-/

namespace LuaBundle
namespace Text

theorem byteLength_append (front back : List Char) :
    byteLength (front ++ back) = byteLength front + byteLength back := by
  induction front with
  | nil => exact (Nat.zero_add _).symm
  | cons c front ih =>
      change c.utf8Size + byteLength (front ++ back) = c.utf8Size + byteLength front + _
      rw [ih, Nat.add_assoc]

theorem byteLength_eq_length {text : List Char} (h : ∀ c ∈ text, c.utf8Size = 1) :
    byteLength text = text.length := by
  induction text with
  | nil => rfl
  | cons c text ih =>
      change c.utf8Size + byteLength text = _
      rw [h c List.mem_cons_self, ih fun d hd => h d (List.mem_cons_of_mem _ hd),
        List.length_cons, Nat.add_comm]

theorem exists_byteLength_cons (c : Char) (text : List Char) :
    ∃ n, byteLength (c :: text) = n + 1 ∧ c.utf8Size ≤ n + 1 ∧
      n + 1 - c.utf8Size = byteLength text := by
  have hpos : 0 < c.utf8Size := c.utf8Size_pos
  have hlength : byteLength (c :: text) = c.utf8Size + byteLength text := rfl
  exact ⟨byteLength (c :: text) - 1, by omega, by omega, by omega⟩

theorem takeBytes?_append (front back : List Char) :
    takeBytes? (byteLength front) (front ++ back) = some front := by
  induction front with
  | nil => rw [byteLength, List.foldr_nil, takeBytes?]
  | cons c front ih =>
      obtain ⟨n, hn, hle, hrest⟩ := exists_byteLength_cons c front
      rw [hn, List.cons_append, takeBytes?, if_pos hle, hrest, ih]
      rfl

theorem dropBytes?_append (front back : List Char) :
    dropBytes? (byteLength front) (front ++ back) = some back := by
  induction front with
  | nil => rw [byteLength, List.foldr_nil, dropBytes?, List.nil_append]
  | cons c front ih =>
      obtain ⟨n, hn, hle, hrest⟩ := exists_byteLength_cons c front
      rw [hn, List.cons_append, dropBytes?, if_pos hle, hrest, ih]

theorem byteSlice?_between (front middle back : List Char) :
    byteSlice? (front ++ (middle ++ back)) (byteLength front)
      (byteLength front + byteLength middle) = some middle := by
  rw [byteSlice?, if_pos (Nat.le_add_right _ _), dropBytes?_append, Option.bind_some,
    Nat.add_sub_cancel_left, takeBytes?_append]

end Text
end LuaBundle
