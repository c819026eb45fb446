import LuaBundle.Proofs.Bundle.Growth

/-!
# The modules of a run

Against the state at the end of a discovery, a run meets modules in depth-first order,
answers every call by the number of the module it leads to, and stores for every module it
meets the tree with the calls replaced.
-/

namespace LuaBundle

open Lua

def Explorer.keys (x : Explorer) (d : Discovery) : List Path :=
  x.entry.path :: d.table.map Prod.fst

/-- What the end of a discovery knows about a stop that was passed. -/
def Explorer.Passes (x : Explorer) (final : Discovery) (s : Location) : WalkStop → Prop
  | .name n => ¬IsReserved n
  | .call (.unsupported _) => False
  | .call (.module name _) =>
      ∃ t id, x.leadsTo final.known s name = some t ∧ (t.path == x.entry.path) = false ∧
        final.table.lookup t.path = some id

def Explorer.treesFrom (x : Explorer) (final : Discovery) (first : Nat)
    (scripts : List Location) : ModuleTrees :=
  (scripts.zipIdx first).map fun (s, id) => (id, x.treeOf final s)

section Run

variable {x : Explorer} {s t : Location} {stops : List WalkStop} {d d₁ d' final : Discovery}
  {new : List Location} {answers : Answers} {name : String} {line id : Nat}

theorem called_cons_of_leadsTo (h : x.leadsTo final.known s name = some t) :
    x.called final s (.call (.module name line) :: stops) = t :: x.called final s stops := by
  simp [Explorer.called, h]

theorem called_cons_name {n : Name} :
    x.called final s (.name n :: stops) = x.called final s stops := by
  simp [Explorer.called]

/-!
## Single steps against the end
-/

theorem leadsTo_of_find (hfind : x.find s name d = .ok (t, d₁)) (hfinal : Grown d₁ final) :
    x.leadsTo final.known s name = some t := by
  rcases find_ok hfind with ⟨known, rfl, _, hleads, _⟩
  exact hleads _ hfinal.known

theorem keys_of_find (hfind : x.find s name d = .ok (t, d₁)) : x.keys d₁ = x.keys d := by
  rcases find_ok hfind with ⟨known, rfl, _, _, _⟩
  rfl

theorem keys_begin : x.keys (d.begin s.path t.path line) = x.keys d ++ [t.path] := by
  simp [Explorer.keys, Discovery.begin, Discovery.enter, Discovery.connect, Discovery.number]

theorem mem_keys_of_lookup (hknown : d.table.lookup t.path = some id) :
    ∃ p ∈ x.keys d, (t.path == p) = true := by
  rcases mem_of_lookup hknown with ⟨p, hp, heq⟩
  exact ⟨p, List.mem_cons_of_mem _ (List.mem_map.mpr ⟨_, hp, rfl⟩), heq⟩

theorem not_mem_keys (hentry : (t.path == x.entry.path) = false)
    (hnew : d.table.lookup t.path = none) : ∀ p ∈ x.keys d, (t.path == p) = false := by
  intro p hp
  rcases List.mem_cons.mp hp with rfl | hp
  · exact hentry
  · rcases List.mem_map.mp hp with ⟨pair, hpair, rfl⟩
    exact lookup_eq_none_of_beq.mp hnew pair hpair

theorem numberOf_eq (hleads : x.leadsTo final.known s name = some t)
    (hlookup : final.table.lookup t.path = some id) : x.numberOf final s name = id := by
  simp [Explorer.numberOf, hleads, hlookup]

theorem lookup_new (hnew : d.table.lookup t.path = none)
    (hgrown : d.table ++ [(t.path, id)] <+: final.table) :
    final.table.lookup t.path = some id := by
  refine lookup_of_isPrefix hgrown ?_
  rw [List.lookup_append, hnew, Option.none_or, List.lookup_cons, BEq.rfl]

/-!
## Order
-/

theorem Visits.preorder (h : Visits x s stops d new answers d') (hfinal : Grown d' final) :
    ∀ {todo met}, Preorder (x.next final) (x.keys d') todo met →
      Preorder (x.next final) (x.keys d) (x.called final s stops ++ todo) (new ++ met) := by
  induction h with
  | done s d =>
      intro todo met hmet
      exact hmet
  | name _ _ ih =>
      intro todo met hmet
      rw [called_cons_name]
      exact ih hfinal hmet
  | again hfind _ hknown hrest ih =>
      intro todo met hmet
      have hgrown := hrest.grown.trans hfinal
      rw [called_cons_of_leadsTo (leadsTo_of_find hfind ⟨hgrown.known, hgrown.table⟩),
        ← keys_of_find hfind]
      exact .again (mem_keys_of_lookup hknown) (ih hfinal hmet)
  | @enter s name line stops d t d₁ chunk body inner inside d₂ new answers d' hfind hentry hnew
      hparse hinside _ hrest ihinside ihrest =>
      intro todo met hmet
      rcases Visits.grown_enter hinside hrest hfinal with ⟨hlast, hknown, htable⟩
      have hbegin := hinside.grown.trans hlast
      have hd₁ : Grown d₁ final := ⟨hknown, (List.prefix_append _ _).trans htable⟩
      have hnext : x.next final t = x.called final t (blockStops chunk.body) := by
        simp [Explorer.next, hparse]
      rw [called_cons_of_leadsTo (leadsTo_of_find hfind hd₁), ← keys_of_find hfind]
      simp only [List.cons_append, List.append_assoc]
      refine .enter (not_mem_keys hentry hnew) ?_
      rw [hnext, ← @keys_begin x s t d₁ line]
      exact ihinside hlast (ihrest hfinal hmet)

/-!
## Answers
-/

/-- A run passes all its stops, and answers calls by the numbers at the end. -/
theorem Visits.passes (h : Visits x s stops d new answers d') (hfinal : Grown d' final) :
    answers.Agree (x.numberOf final s) ∧ ∀ stop ∈ stops, x.Passes final s stop := by
  induction h with
  | done s d => exact ⟨by simp [Answers.Agree], by simp⟩
  | name hname _ ih =>
      rcases ih hfinal with ⟨hagree, hpasses⟩
      exact ⟨hagree, List.forall_mem_cons.mpr ⟨hname, hpasses⟩⟩
  | again hfind hentry hknown hrest ih =>
      rcases ih hfinal with ⟨hagree, hpasses⟩
      have hgrown := hrest.grown.trans hfinal
      have hleads := leadsTo_of_find hfind ⟨hgrown.known, hgrown.table⟩
      have hlookup := lookup_of_isPrefix hgrown.table hknown
      exact ⟨List.forall_mem_cons.mpr ⟨numberOf_eq hleads hlookup, hagree⟩,
        List.forall_mem_cons.mpr ⟨⟨_, _, hleads, hentry, hlookup⟩, hpasses⟩⟩
  | enter hfind hentry hnew _ hinside _ hrest _ ih =>
      rcases ih hfinal with ⟨hagree, hpasses⟩
      rcases Visits.grown_enter hinside hrest hfinal with ⟨_, hknown, htable⟩
      have hleads :=
        leadsTo_of_find hfind ⟨hknown, (List.prefix_append _ _).trans htable⟩
      have hlookup := lookup_new hnew htable
      exact ⟨List.forall_mem_cons.mpr ⟨numberOf_eq hleads hlookup, hagree⟩,
        List.forall_mem_cons.mpr ⟨⟨_, _, hleads, hentry, hlookup⟩, hpasses⟩⟩

def Explorer.Explores (x : Explorer) (final : Discovery) (s : Location) : Prop :=
  ∃ chunk, x.parse s = .ok chunk ∧ ∀ stop ∈ blockStops chunk.body, x.Passes final s stop

/-- Every module that a run meets is explored and lies at a canonical path. -/
theorem Visits.explores (h : Visits x s stops d new answers d') (hfinal : Grown d' final) :
    ∀ t ∈ new, x.Explores final t ∧ t.IsCanonical x.files := by
  induction h with
  | done s d => simp
  | name _ _ ih => exact ih hfinal
  | again _ _ _ _ ih => exact ih hfinal
  | enter hfind _ _ hparse hinside _ hrest ihinside ihrest =>
      rcases Visits.grown_enter hinside hrest hfinal with ⟨hlast, _, _⟩
      rcases find_ok hfind with ⟨_, _, _, _, hcanonical⟩
      intro u hu
      rw [List.cons_append] at hu
      rcases List.mem_cons.mp hu with rfl | hu
      · exact ⟨⟨_, hparse, (hinside.passes hlast).2⟩, hcanonical⟩
      · rcases List.mem_append.mp hu with hu | hu
        · exact ihinside hlast u hu
        · exact ihrest hfinal u hu

/-!
## Trees
-/

theorem treesFrom_append (first : Nat) (front back : List Location) :
    x.treesFrom final first (front ++ back) =
      x.treesFrom final first front ++ x.treesFrom final (first + front.length) back := by
  simp [Explorer.treesFrom, List.zipIdx_append]

theorem bounds_of_mem_treesFrom {first : Nat} {scripts : List Location} {entry : Nat × Chunk}
    (h : entry ∈ x.treesFrom final first scripts) :
    first ≤ entry.1 ∧ entry.1 < first + scripts.length := by
  rcases List.mem_map.mp h with ⟨⟨s, id⟩, hmem, rfl⟩
  exact ⟨List.le_snd_of_mem_zipIdx hmem, List.snd_lt_add_of_mem_zipIdx hmem⟩

theorem ModuleTrees.insert_of_not_mem {trees : ModuleTrees} {tree : Chunk}
    (h : ∀ entry ∈ trees, entry.1 ≠ id) : trees.insert id tree = (id, tree) :: trees := by
  unfold ModuleTrees.insert
  congr 1
  refine List.filter_eq_self.mpr ?_
  intro entry hentry
  simpa using h entry hentry

/-- A run stores the tree of every module it meets under its number, and no other tree. -/
theorem Visits.trees (h : Visits x s stops d new answers d') (hfinal : Grown d' final)
    (hbound : ∀ entry ∈ d.trees, entry.1 ≤ d.table.length) :
    d'.trees.Perm (x.treesFrom final (d.table.length + 1) new ++ d.trees) := by
  induction h with
  | done s d => exact .refl _
  | name _ _ ih => exact ih hfinal hbound
  | again hfind _ _ _ ih =>
      rcases find_ok hfind with ⟨known, rfl, _, _, _⟩
      exact ih hfinal hbound
  | @enter s name line stops d t d₁ chunk body inner inside d₂ new answers d' hfind _ _ hparse
      hinside hbody hrest ihinside ihrest =>
      rcases find_ok hfind with ⟨known, rfl, _, _, _⟩
      rcases Visits.grown_enter hinside hrest hfinal with ⟨hlast, _, _⟩
      have htree : { chunk with body } = x.treeOf final t := by
        rw [hbody _ (hinside.passes hlast).1]
        simp [Explorer.treeOf, hparse]
      have hlength : d₂.table.length = d.table.length + 1 + inner.length := by
        rw [hinside.grows.2.1]
        simp [numbered_length, Discovery.begin, Discovery.enter, Discovery.connect,
          Discovery.number]
        omega
      have hinner : d₂.trees.Perm (x.treesFrom final (d.table.length + 2) inner ++ d.trees) := by
        have hperm := ihinside hlast (by
          intro entry hentry
          have hle := hbound entry hentry
          simp only [Discovery.begin, Discovery.enter, Discovery.connect, Discovery.number,
            List.length_append, List.length_singleton]
          omega)
        simpa [Discovery.begin, Discovery.enter, Discovery.connect, Discovery.number] using hperm
      have hmem : ∀ entry ∈ d₂.trees, entry.1 ≠ d.table.length + 1 ∧
          entry.1 ≤ d₂.table.length := by
        intro entry hentry
        rcases List.mem_append.mp (hinner.mem_iff.mp hentry) with hentry | hentry
        · have hbounds := bounds_of_mem_treesFrom hentry
          omega
        · have hle := hbound entry hentry
          omega
      have hstore : (d₂.store (d.table.length + 1) { chunk with body }).trees =
          (d.table.length + 1, x.treeOf final t) :: d₂.trees := by
        rw [htree]
        exact ModuleTrees.insert_of_not_mem fun entry hentry => (hmem entry hentry).1
      have houter := ihrest hfinal (by
        intro entry hentry
        rw [hstore] at hentry
        rcases List.mem_cons.mp hentry with rfl | hentry
        · simp only [Discovery.store, hlength]
          omega
        · exact (hmem entry hentry).2)
      rw [hstore] at houter
      simp only [Discovery.store, hlength] at houter
      refine houter.trans ?_
      have hsplit : x.treesFrom final (d.table.length + 1) (t :: inner ++ new) =
          (d.table.length + 1, x.treeOf final t) :: x.treesFrom final (d.table.length + 2) inner
            ++ x.treesFrom final (d.table.length + 1 + inner.length + 1) new := by
        have htail : d.table.length + 1 + (t :: inner).length =
            d.table.length + 1 + inner.length + 1 := by
          rw [List.length_cons]
          omega
        rw [treesFrom_append, htail]
        rfl
      rw [hsplit]
      refine (List.Perm.append_left _ (hinner.cons _)).trans ?_
      rw [← List.cons_append, ← List.append_assoc]
      exact List.perm_append_comm.append_right d.trees

end Run

end LuaBundle
