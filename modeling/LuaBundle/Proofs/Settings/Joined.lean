import LuaBundle.Proofs.Settings.Layers

/-!
# Lists of settings as a monoid

Merging two lists puts the items of the second that are new behind the first.  In which order
several merges are carried out does not matter, a list that is not given changes nothing, and
no list gains by itself.  Items are compared by any equivalence, as paths are by their
components; an item that is kept stays as it is spelled.
-/

namespace LuaBundle

/-- What two lists give together: the first as it stands, and behind it the items that only the
second has, each one as the second spells it first and in the order of these places. -/
structure IsJoined [BEq α] (first second joined : List α) : Prop where
  starts : first <+: joined
  taken : ∀ item ∈ joined, item ∈ first ∨ item ∈ second
  held : ∀ item, joined.contains item = (first.contains item || second.contains item)
  fresh : ∀ item ∈ joined.drop first.length, first.contains item = false
  distinct : (joined.drop first.length).Pairwise fun a b => (a == b) = false
  spelled : ∀ item ∈ joined.drop first.length, second[second.idxOf item]? = some item
  ordered : (joined.drop first.length).Pairwise fun a b => second.idxOf a < second.idxOf b

section Joined

variable {α : Type} [BEq α] {item : α} {seen items : List α}

/-!
## New items
-/

theorem unseen_sublist (seen items : List α) : (unseen seen items).Sublist items := by
  induction items generalizing seen with
  | nil => exact List.nil_sublist _
  | cons item rest ih =>
      rw [unseen]
      split
      · exact (ih seen).cons item
      · exact (ih (item :: seen)).cons_cons item

theorem unseen_fresh (h : item ∈ unseen seen items) : seen.contains item = false := by
  induction items generalizing seen with
  | nil => cases h
  | cons other rest ih =>
      rw [unseen] at h
      split at h
      case isTrue => exact ih h
      case isFalse hother =>
          rcases List.mem_cons.mp h with rfl | h
          · exact eq_false_of_ne_true hother
          · have hmore := ih h
            rw [List.contains_cons, Bool.or_eq_false_iff] at hmore
            exact hmore.2

theorem addNew_of_held {known : List α} (h : ∀ item ∈ items, known.contains item = true) :
    addNew known items = known := by
  induction items with
  | nil => rfl
  | cons item rest ih =>
      rw [addNew_cons, h item List.mem_cons_self, if_pos rfl]
      exact ih fun other hother => h other (List.mem_cons_of_mem _ hother)

variable [EquivBEq α]

theorem unseen_distinct (seen items : List α) :
    (unseen seen items).Pairwise fun a b => (a == b) = false := by
  induction items generalizing seen with
  | nil => exact List.Pairwise.nil
  | cons item rest ih =>
      rw [unseen]
      split
      · exact ih seen
      · apply List.Pairwise.cons
        · intro other hother
          have hfresh := unseen_fresh hother
          rw [List.contains_cons, Bool.or_eq_false_iff] at hfresh
          exact BEq.symm_false hfresh.1
        · exact ih (item :: seen)

/-- A new item is not the one that stands in front of the places it is looked for in. -/
theorem idxOf_unseen {other : α} {rest : List α} (hother : seen.contains other = true)
    (h : item ∈ unseen seen rest) : (other :: rest).idxOf item = rest.idxOf item + 1 := by
  have hne : (other == item) = false := by
    apply eq_false_of_ne_true
    intro heq
    have hfresh := unseen_fresh h
    rw [← List.contains_congr heq, hother] at hfresh
    cases hfresh
  rw [List.idxOf_cons, hne]
  rfl

theorem unseen_spelled (h : item ∈ unseen seen items) :
    items[items.idxOf item]? = some item := by
  induction items generalizing seen with
  | nil => cases h
  | cons other rest ih =>
      rw [unseen] at h
      split at h
      case isTrue hother =>
          rw [idxOf_unseen hother h, List.getElem?_cons_succ]
          exact ih h
      case isFalse =>
          rcases List.mem_cons.mp h with rfl | h
          · rw [List.idxOf_cons, BEq.rfl]
            rfl
          · have hother : (other :: seen).contains other = true := by
              rw [List.contains_cons, BEq.rfl, Bool.true_or]
            rw [idxOf_unseen hother h, List.getElem?_cons_succ]
            exact ih h

theorem unseen_ordered (seen items : List α) :
    (unseen seen items).Pairwise fun a b => items.idxOf a < items.idxOf b := by
  induction items generalizing seen with
  | nil => exact List.Pairwise.nil
  | cons item rest ih =>
      -- Both places move by one when an item is put in front that is neither of the two.
      have hmoved : ∀ known : List α, known.contains item = true →
          (unseen known rest).Pairwise fun a b =>
            (item :: rest).idxOf a < (item :: rest).idxOf b := by
        intro known hknown
        apply (ih known).imp_of_mem
        intro a b ha hb hlt
        rw [idxOf_unseen hknown ha, idxOf_unseen hknown hb]
        exact Nat.succ_lt_succ hlt
      rw [unseen]
      split
      case isTrue hseen => exact hmoved seen hseen
      case isFalse =>
          have hitem : (item :: seen).contains item = true := by
            rw [List.contains_cons, BEq.rfl, Bool.true_or]
          apply List.Pairwise.cons
          · intro other hother
            rw [idxOf_unseen hitem hother, List.idxOf_cons, BEq.rfl]
            exact Nat.succ_pos _
          · exact hmoved (item :: seen) hitem

/-!
## Merged lists
-/

theorem isJoined_addNew (first second : List α) :
    IsJoined first second (addNew first second) := by
  have hadded : (addNew first second).drop first.length = unseen first second := by
    rw [addNew_eq, List.drop_left]
  constructor
  case starts =>
      rw [addNew_eq]
      exact List.prefix_append _ _
  case taken =>
      intro item hitem
      rw [addNew_eq, List.mem_append] at hitem
      exact hitem.imp_right fun h => (unseen_sublist first second).subset h
  case held => exact contains_addNew first second
  case fresh =>
      rw [hadded]
      exact fun item hitem => unseen_fresh hitem
  case distinct =>
      rw [hadded]
      exact unseen_distinct first second
  case spelled =>
      rw [hadded]
      exact fun item hitem => unseen_spelled hitem
  case ordered =>
      rw [hadded]
      exact unseen_ordered first second

theorem mergeLists_assoc (a b c : Option (List α)) :
    mergeLists (mergeLists a b) c = mergeLists a (mergeLists b c) := by
  match a, b, c with
  | none, _, _ => rfl
  | some first, none, _ => rfl
  | some first, some second, none => rfl
  | some first, some second, some third =>
      exact congrArg some (addNew_addNew first second third).symm

theorem mergeLists_self (a : Option (List α)) : mergeLists a a = a := by
  cases a with
  | none => rfl
  | some items =>
      apply congrArg some
      apply addNew_of_held
      intro item hitem
      exact List.contains_iff_exists_mem_beq.mpr ⟨item, hitem, BEq.rfl⟩

end Joined

/-- Merging optional lists is a monoid in which every list is idempotent, and of two lists that
are given it joins the second to the first. -/
theorem mergeLists_monoid {α : Type} [BEq α] [EquivBEq α] :
    (∀ a b c : Option (List α), mergeLists (mergeLists a b) c = mergeLists a (mergeLists b c)) ∧
      (∀ a : Option (List α),
        mergeLists none a = a ∧ mergeLists a none = a ∧ mergeLists a a = a) ∧
      ∀ first second : List α, ∃ joined, mergeLists (some first) (some second) = some joined ∧
        IsJoined first second joined := by
  constructor
  · exact mergeLists_assoc
  constructor
  · intro a
    exact ⟨rfl, mergeLists_none a, mergeLists_self a⟩
  · intro first second
    exact ⟨addNew first second, rfl, isJoined_addNew first second⟩

def projectDirs : List Path :=
  [⟨"lua_modules"⟩, ⟨"lua_modules/"⟩]

def userDirs : List Path :=
  [⟨"vendor//lua"⟩, ⟨"lua_modules/."⟩, ⟨"vendor/lua"⟩, ⟨"lib"⟩]

def systemDirs : List Path :=
  [⟨"lib/"⟩, ⟨"/usr/share/lua"⟩]

theorem spelledDirs_monoid :
    mergeLists (mergeLists (some projectDirs) (some userDirs)) (some systemDirs) =
        mergeLists (some projectDirs) (mergeLists (some userDirs) (some systemDirs)) ∧
      mergeLists (some projectDirs) (some projectDirs) = some projectDirs ∧
      mergeLists (some projectDirs) (some userDirs) =
        some (projectDirs ++ [⟨"vendor//lua"⟩, ⟨"lib"⟩]) ∧
      IsJoined projectDirs userDirs (projectDirs ++ [⟨"vendor//lua"⟩, ⟨"lib"⟩]) := by
  rcases @mergeLists_monoid Path _ _ with ⟨hassoc, hidentity, hjoined⟩
  have hmerged : mergeLists (some projectDirs) (some userDirs) =
      some (projectDirs ++ [⟨"vendor//lua"⟩, ⟨"lib"⟩]) := by
    rfl
  rcases hjoined projectDirs userDirs with ⟨joined, hsome, hholds⟩
  cases hmerged.symm.trans hsome
  exact ⟨hassoc _ _ _, (hidentity _).2.2, hmerged, hholds⟩

end LuaBundle
