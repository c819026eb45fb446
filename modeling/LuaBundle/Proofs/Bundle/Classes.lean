import LuaBundle.Proofs.Bundle.Cycles

/-!
# Classes of scripts on cycles

Two scripts belong together when a cycle passes through both.  The classes of such scripts,
each sorted, form one sorted list, however the graph is cut into its strongly connected
components.
-/

namespace LuaBundle
namespace RequireGraph

variable {g : RequireGraph} {i j k : Nat}

theorem CycleThrough.symm (h : g.CycleThrough i j) : g.CycleThrough j i :=
  ⟨h.2, h.1⟩

theorem CycleThrough.trans (hij : g.CycleThrough i j) (hjk : g.CycleThrough j k) :
    g.CycleThrough i k :=
  ⟨Relation.TransGen.trans hij.1 hjk.1, Relation.TransGen.trans hjk.2 hij.2⟩

theorem CycleThrough.congr (h : g.CycleThrough i j) : g.CycleThrough i k ↔ g.CycleThrough j k :=
  ⟨h.symm.trans, h.trans⟩

def IsClosed (g : RequireGraph) : Prop :=
  ∀ i j, g.Joins i j → i < g.nodes.length ∧ j < g.nodes.length

theorem Reaches.lt (hclosed : g.IsClosed) (h : g.Reaches i j) :
    i < g.nodes.length ∧ j < g.nodes.length := by
  rcases Relation.TransGen.head'_iff.mp h with ⟨_, hfirst, _⟩
  rcases Relation.TransGen.tail'_iff.mp h with ⟨_, _, hlast⟩
  exact ⟨(hclosed _ _ hfirst).1, (hclosed _ _ hlast).2⟩

/-!
## Lists of cycles
-/

/-- Whether a list of scripts starts another, or is smaller at their first difference. -/
def cycleLe (a b : List Path) : Bool :=
  Path.listLe Path.listComponentLe (a.map Path.components) (b.map Path.components)

/-- Whether a list holds the classes of the scripts on cycles, sorted and each sorted. -/
structure ListsCycles (g : RequireGraph) (cycles : List (List Path)) : Prop where
  isClass : ∀ cycle ∈ cycles, ∃ i, g.Reaches i i ∧
    ∀ p, p ∈ cycle ↔ ∃ j, g.path? j = some p ∧ g.CycleThrough i j
  complete : ∀ i p, g.Reaches i i → g.path? i = some p → ∃ cycle ∈ cycles, p ∈ cycle
  disjoint : cycles.Pairwise fun a b => ∀ p ∈ a, ∀ q ∈ b, (p == q) = false
  increasing : ∀ cycle ∈ cycles, cycle.Pairwise fun p q => Path.le p q = true ∧ (p == q) = false
  sorted : cycles.Pairwise fun a b => cycleLe a b = true

def listClasses (g : RequireGraph) (classes : List (List Nat)) : List (List Path) :=
  (classes.map fun members => (members.filterMap g.path?).mergeSort Path.le).mergeSort cycleLe

/-- Whether a list holds the classes of the positions on cycles. -/
structure IsClasses (g : RequireGraph) (classes : List (List Nat)) : Prop where
  isClass : ∀ members ∈ classes, ∃ i, g.Reaches i i ∧ ∀ j, j ∈ members ↔ g.CycleThrough i j
  complete : ∀ i, g.Reaches i i → ∃ members ∈ classes, i ∈ members
  nodup : ∀ members ∈ classes, members.Nodup
  disjoint : classes.Pairwise List.Disjoint

theorem key_of_path? {p : Path} (h : g.path? i = some p) : g.keys[i]? = some p.components := by
  rw [keys, List.getElem?_map]
  rw [path?] at h
  rcases Option.map_eq_some_iff.mp h with ⟨node, hnode, rfl⟩
  rw [hnode]
  rfl

theorem path?_inj (hkeys : g.keys.Nodup) {p q : Path} (hp : g.path? i = some p)
    (hq : g.path? j = some q) (hsame : (p == q) = true) : i = j := by
  have hi := key_of_path? hp
  have hj := key_of_path? hq
  rw [Path.beq_iff.mp hsame] at hi
  exact (List.getElem?_inj (List.getElem?_eq_some_iff.mp hi).1 hkeys).mp (hi.trans hj.symm)

theorem ne_of_path? (hkeys : g.keys.Nodup) {p q : Path} (hp : g.path? i = some p)
    (hq : g.path? j = some q) (hne : i ≠ j) : (p == q) = false := by
  refine eq_false_of_ne_true fun hsame => hne ?_
  exact path?_inj hkeys hp hq hsame

theorem mem_sortedMembers {members : List Nat} {p : Path} :
    p ∈ (members.filterMap g.path?).mergeSort Path.le ↔ ∃ j ∈ members, g.path? j = some p := by
  rw [List.mem_mergeSort, List.mem_filterMap]

theorem mem_listClasses {classes : List (List Nat)} {cycle : List Path} :
    cycle ∈ g.listClasses classes ↔
      ∃ members ∈ classes, (members.filterMap g.path?).mergeSort Path.le = cycle := by
  rw [listClasses, List.mem_mergeSort, List.mem_map]

theorem IsClasses.lists {classes : List (List Nat)} (h : g.IsClasses classes)
    (hkeys : g.keys.Nodup) : g.ListsCycles (g.listClasses classes) where
  isClass := by
    intro cycle hcycle
    rcases mem_listClasses.mp hcycle with ⟨members, hmembers, rfl⟩
    rcases h.isClass members hmembers with ⟨i, hi, hiff⟩
    refine ⟨i, hi, fun p => mem_sortedMembers.trans (exists_congr fun j => ?_)⟩
    rw [hiff, and_comm]
  complete := by
    intro i p hi hp
    rcases h.complete i hi with ⟨members, hmembers, hmem⟩
    exact ⟨_, mem_listClasses.mpr ⟨members, hmembers, rfl⟩, mem_sortedMembers.mpr ⟨i, hmem, hp⟩⟩
  disjoint := by
    refine (List.Perm.pairwise_iff ?_ (List.mergeSort_perm _ _)).mpr (List.pairwise_map.mpr ?_)
    · intro a b hab p hp q hq
      rw [BEq.comm]
      exact hab q hq p hp
    · refine h.disjoint.imp fun {a b} hab p hp q hq => ?_
      rcases mem_sortedMembers.mp hp with ⟨i, hi, hp⟩
      rcases mem_sortedMembers.mp hq with ⟨j, hj, hq⟩
      refine ne_of_path? hkeys hp hq ?_
      rintro rfl
      exact hab hi hj
  increasing := by
    intro cycle hcycle
    rcases mem_listClasses.mp hcycle with ⟨members, hmembers, rfl⟩
    refine (Path.isOrder_components.sorted Path.components _).and ?_
    refine (List.Perm.pairwise_iff ?_ (List.mergeSort_perm _ _)).mpr ?_
    · intro p q hpq
      rw [BEq.comm]
      exact hpq
    · refine List.pairwise_filterMap.mpr ((h.nodup members hmembers).imp fun hne p hp q hq => ?_)
      exact ne_of_path? hkeys hp hq hne
  sorted := Path.isOrder_rows.sorted (List.map Path.components) _

/-!
## One list
-/

theorem exists_path? (hi : i < g.nodes.length) : ∃ p, g.path? i = some p :=
  ⟨(g.nodes[i]).path, by rw [path?, List.getElem?_eq_getElem hi, Option.map_some]⟩

theorem eq_of_components (hkeys : g.keys.Nodup) {p q : Path} (hp : ∃ i, g.path? i = some p)
    (hq : ∃ i, g.path? i = some q) (hsame : p.components = q.components) : p = q := by
  rcases hp with ⟨i, hi⟩
  rcases hq with ⟨j, hj⟩
  cases path?_inj hkeys hi hj (Path.beq_iff.mpr hsame)
  exact Option.some.inj (hi.symm.trans hj)

theorem eq_of_map_components (hkeys : g.keys.Nodup) {a b : List Path}
    (ha : ∀ p ∈ a, ∃ i, g.path? i = some p) (hb : ∀ p ∈ b, ∃ i, g.path? i = some p)
    (hsame : a.map Path.components = b.map Path.components) : a = b := by
  induction a generalizing b with
  | nil => exact (List.map_eq_nil_iff.mp hsame.symm).symm
  | cons p a ih =>
      cases b with
      | nil => cases hsame
      | cons q b =>
          rcases List.cons.inj hsame with ⟨hhead, htail⟩
          rw [List.forall_mem_cons] at ha hb
          rw [eq_of_components hkeys ha.1 hb.1 hhead, ih ha.2 hb.2 htail]

theorem cycle_eq (hkeys : g.keys.Nodup) {a b : List Path}
    (ha : a.Pairwise fun p q => Path.le p q = true ∧ (p == q) = false)
    (hb : b.Pairwise fun p q => Path.le p q = true ∧ (p == q) = false)
    (hsame : ∀ p, p ∈ a ↔ p ∈ b) (hpaths : ∀ p ∈ a, ∃ i, g.path? i = some p) : a = b := by
  have hnodup : ∀ {c : List Path},
      c.Pairwise (fun p q => Path.le p q = true ∧ (p == q) = false) → c.Nodup := by
    intro c hc
    refine hc.imp fun hpq heq => ?_
    rw [heq, BEq.rfl] at hpq
    cases hpq.2
  refine List.Perm.eq_of_pairwise ?_ (ha.imp And.left) (hb.imp And.left)
    ((List.perm_ext_iff_of_nodup (hnodup ha) (hnodup hb)).mpr hsame)
  intro p q hp hq hpq hqp
  exact eq_of_components hkeys (hpaths p hp) (hpaths q ((hsame q).mpr hq))
    (Path.isOrder_components.antisymm _ _ hpq hqp)

namespace ListsCycles

variable {a b : List (List Path)}

theorem path?_of_mem (h : g.ListsCycles a) {cycle : List Path} (hcycle : cycle ∈ a) {p : Path}
    (hp : p ∈ cycle) : ∃ i, g.path? i = some p := by
  rcases h.isClass cycle hcycle with ⟨_, _, hiff⟩
  rcases (hiff p).mp hp with ⟨i, hi, _⟩
  exact ⟨i, hi⟩

theorem exists_mem (h : g.ListsCycles a) (hclosed : g.IsClosed) {cycle : List Path}
    (hcycle : cycle ∈ a) : ∃ p, p ∈ cycle := by
  rcases h.isClass cycle hcycle with ⟨i, hi, hiff⟩
  rcases exists_path? (hi.lt hclosed).1 with ⟨p, hp⟩
  exact ⟨p, (hiff p).mpr ⟨i, hp, hi, hi⟩⟩

theorem nodup (h : g.ListsCycles a) (hclosed : g.IsClosed) : a.Nodup := by
  refine List.Pairwise.imp_of_mem (fun {x y} hx _ hxy heq => ?_) h.disjoint
  subst heq
  rcases h.exists_mem hclosed hx with ⟨p, hp⟩
  have hne := hxy p hp p hp
  rw [BEq.rfl] at hne
  cases hne

theorem subset (ha : g.ListsCycles a) (hb : g.ListsCycles b) (hkeys : g.keys.Nodup)
    (hclosed : g.IsClosed) {cycle : List Path} (hcycle : cycle ∈ a) : cycle ∈ b := by
  rcases ha.isClass cycle hcycle with ⟨i, hi, hiff⟩
  rcases exists_path? (hi.lt hclosed).1 with ⟨p, hp⟩
  rcases hb.complete i p hi hp with ⟨other, hother, hmem⟩
  rcases hb.isClass other hother with ⟨j, _, hjff⟩
  rcases (hjff p).mp hmem with ⟨i', hi', hcommon⟩
  cases path?_inj hkeys hp hi' BEq.rfl
  have hsame : ∀ q, q ∈ cycle ↔ q ∈ other := by
    intro q
    rw [hiff, hjff]
    exact exists_congr fun k => and_congr_right fun _ => hcommon.congr.symm
  rwa [cycle_eq hkeys (ha.increasing _ hcycle) (hb.increasing _ hother) hsame
    fun q hq => ha.path?_of_mem hcycle hq]

theorem eq (ha : g.ListsCycles a) (hb : g.ListsCycles b) (hkeys : g.keys.Nodup)
    (hclosed : g.IsClosed) : a = b := by
  have hmem : ∀ cycle, cycle ∈ a ↔ cycle ∈ b := fun _ =>
    ⟨ha.subset hb hkeys hclosed, hb.subset ha hkeys hclosed⟩
  refine List.Perm.eq_of_pairwise ?_ ha.sorted hb.sorted
    ((List.perm_ext_iff_of_nodup (ha.nodup hclosed) (hb.nodup hclosed)).mpr hmem)
  intro x y hx hy hxy hyx
  exact eq_of_map_components hkeys (fun _ => ha.path?_of_mem hx) (fun _ => hb.path?_of_mem hy)
    (Path.isOrder_rows.antisymm _ _ hxy hyx)

end ListsCycles

/-!
## The program's list
-/

def classAt (g : RequireGraph) (i : Nat) : List Nat :=
  (List.range g.nodes.length).filter (g.classOf i).contains

def classes (g : RequireGraph) : List (List Nat) :=
  addNew [] (((List.range g.nodes.length).map g.classAt).filter (!·.isEmpty))

theorem cycles_eq (g : RequireGraph) : g.cycles = g.listClasses g.classes :=
  rfl

theorem mem_classAt (hclosed : g.IsClosed) : j ∈ g.classAt i ↔ g.CycleThrough i j := by
  rw [classAt, List.mem_filter, List.mem_range, List.contains_iff_mem, mem_classOf]
  exact and_iff_right_of_imp fun h => (Reaches.lt hclosed h.1).2

theorem mem_classes {members : List Nat} :
    members ∈ g.classes ↔ (∃ i < g.nodes.length, g.classAt i = members) ∧ members ≠ [] := by
  rw [classes, mem_addNew, List.mem_filter, List.mem_map]
  simp

theorem isClasses_classes (hclosed : g.IsClosed) : g.IsClasses g.classes where
  isClass := by
    intro members hmembers
    rcases mem_classes.mp hmembers with ⟨⟨i, _, rfl⟩, hne⟩
    rcases List.exists_mem_of_ne_nil _ hne with ⟨j, hj⟩
    have hthrough := (mem_classAt hclosed).mp hj
    exact ⟨i, (hthrough.trans hthrough.symm).1, fun k => mem_classAt hclosed⟩
  complete := by
    intro i hi
    have hmem : i ∈ g.classAt i := (mem_classAt hclosed).mpr ⟨hi, hi⟩
    exact ⟨_, mem_classes.mpr ⟨⟨i, (hi.lt hclosed).1, rfl⟩, List.ne_nil_of_mem hmem⟩, hmem⟩
  nodup := by
    intro members hmembers
    rcases mem_classes.mp hmembers with ⟨⟨i, _, rfl⟩, _⟩
    exact List.nodup_range.filter _
  disjoint := by
    have hnodup : g.classes.Nodup := by
      rw [classes, addNew_nil]
      exact nodup_eraseDups _
    refine List.Pairwise.imp_of_mem (fun {a b} ha hb hne => ?_) hnodup
    rcases mem_classes.mp ha with ⟨⟨i, _, rfl⟩, _⟩
    rcases mem_classes.mp hb with ⟨⟨j, _, rfl⟩, _⟩
    intro k hki hkj
    have hij := ((mem_classAt hclosed).mp hki).trans ((mem_classAt hclosed).mp hkj).symm
    refine hne (List.filter_congr fun l _ => ?_)
    rw [Bool.eq_iff_iff, List.contains_iff_mem, List.contains_iff_mem, mem_classOf, mem_classOf]
    exact hij.congr

theorem listsCycles_cycles (hkeys : g.keys.Nodup) (hclosed : g.IsClosed) :
    g.ListsCycles g.cycles := by
  rw [cycles_eq]
  exact (isClasses_classes hclosed).lists hkeys

/-!
## Strongly connected components
-/

/-- Whether the positions are cut into the classes that reach each other in any number of
steps, each position standing in one class. -/
structure IsComponents (g : RequireGraph) (components : List (List Nat)) : Prop where
  covers : components.flatten.Perm (List.range g.nodes.length)
  reach : ∀ members ∈ components, ∀ i ∈ members, ∀ j, j ∈ members ↔
    Relation.ReflTransGen g.Joins i j ∧ Relation.ReflTransGen g.Joins j i

/-- The cycles of a graph from its strongly connected components: those of several scripts,
and those of one script with an edge to itself. -/
def cyclesFrom (g : RequireGraph) (components : List (List Nat)) : List (List Path) :=
  g.listClasses (components.filter fun members =>
    decide (1 < members.length) || members.head?.any fun i => g.hasEdge i i)

theorem reaches_iff (hi : g.Reaches i i) :
    g.CycleThrough i j ↔
      Relation.ReflTransGen g.Joins i j ∧ Relation.ReflTransGen g.Joins j i := by
  constructor
  · rintro ⟨hij, hji⟩
    exact ⟨hij.to_reflTransGen, hji.to_reflTransGen⟩
  · rintro ⟨hij, hji⟩
    rcases Relation.reflTransGen_iff_eq_or_transGen.mp hij with rfl | hij
    · exact ⟨hi, hi⟩
    · rcases Relation.reflTransGen_iff_eq_or_transGen.mp hji with rfl | hji
      · exact ⟨hi, hi⟩
      · exact ⟨hij, hji⟩

namespace IsComponents

variable {components : List (List Nat)} {members : List Nat}

theorem reaches_of_ne (h : g.IsComponents components) (hmembers : members ∈ components)
    (hi : i ∈ members) (hj : j ∈ members) (hne : i ≠ j) : g.Reaches i i := by
  rcases (h.reach members hmembers i hi j).mp hj with ⟨hij, hji⟩
  have hstep := (Relation.reflTransGen_iff_eq_or_transGen.mp hij).resolve_left (Ne.symm hne)
  exact Relation.TransGen.trans_left hstep hji

/-- A component lies on cycles when it has several members, or one with an edge to itself. -/
theorem onCycle_iff (h : g.IsComponents components) (hmembers : members ∈ components)
    (hnodup : members.Nodup) (hi : i ∈ members) :
    (decide (1 < members.length) || members.head?.any fun i => g.hasEdge i i) = true ↔
      g.Reaches i i := by
  match members with
  | [] => cases hi
  | [a] =>
      cases List.mem_singleton.mp hi
      simp only [List.length_singleton, Nat.lt_irrefl, decide_false, Bool.false_or,
        List.head?_cons, Option.any_some, ← joins_iff]
      constructor
      · exact Relation.TransGen.single
      · intro hreach
        rcases Relation.TransGen.head'_iff.mp hreach with ⟨k, hfirst, hback⟩
        have hk := (h.reach _ hmembers i hi k).mpr ⟨.single hfirst, hback⟩
        rwa [List.mem_singleton.mp hk] at hfirst
  | a :: b :: rest =>
      have hab : a ≠ b := fun heq => (List.nodup_cons.mp hnodup).1 (heq ▸ List.mem_cons_self)
      refine iff_of_true (by simp) ?_
      by_cases hia : i = a
      · exact h.reaches_of_ne hmembers hi (List.mem_cons_of_mem _ List.mem_cons_self)
          (hia ▸ hab)
      · exact h.reaches_of_ne hmembers hi List.mem_cons_self hia

theorem isClasses (h : g.IsComponents components) (hclosed : g.IsClosed) :
    g.IsClasses (components.filter fun members =>
      decide (1 < members.length) || members.head?.any fun i => g.hasEdge i i) := by
  rcases List.nodup_flatten.mp (h.covers.nodup_iff.mpr List.nodup_range) with ⟨hnodup, hdisjoint⟩
  constructor
  case isClass =>
    intro members hfilter
    rcases List.mem_filter.mp hfilter with ⟨hmembers, hcheck⟩
    have hne : members ≠ [] := by
      rintro rfl
      cases hcheck
    rcases List.exists_mem_of_ne_nil _ hne with ⟨i, hi⟩
    have hreach := (h.onCycle_iff hmembers (hnodup _ hmembers) hi).mp hcheck
    exact ⟨i, hreach, fun j => (h.reach _ hmembers i hi j).trans (reaches_iff hreach).symm⟩
  case complete =>
    intro i hi
    have hmem := h.covers.mem_iff.mpr (List.mem_range.mpr (hi.lt hclosed).1)
    rcases List.mem_flatten.mp hmem with ⟨members, hmembers, hin⟩
    have hcheck := (h.onCycle_iff hmembers (hnodup _ hmembers) hin).mpr hi
    exact ⟨members, List.mem_filter.mpr ⟨hmembers, hcheck⟩, hin⟩
  case nodup => exact fun members hmembers => hnodup _ (List.mem_filter.mp hmembers).1
  case disjoint => exact hdisjoint.filter _

end IsComponents

theorem reflTransGen_iff : Relation.ReflTransGen g.Joins i j ↔ j = i ∨ j ∈ g.after i := by
  rw [mem_after, Relation.reflTransGen_iff_eq_or_transGen]
  rfl

theorem isComponents_iff {components : List (List Nat)} :
    g.IsComponents components ↔
      components.flatten.Perm (List.range g.nodes.length) ∧
        ∀ members ∈ components, ∀ i ∈ members,
          (∀ j ∈ members, (j = i ∨ j ∈ g.after i) ∧ (i = j ∨ i ∈ g.after j)) ∧
            ∀ j ∈ i :: g.after i, i = j ∨ i ∈ g.after j → j ∈ members := by
  constructor
  · rintro ⟨hcovers, hreach⟩
    simp only [reflTransGen_iff] at hreach
    refine ⟨hcovers, fun members hmembers i hi => ⟨fun j => (hreach _ hmembers i hi j).mp, ?_⟩⟩
    intro j hj hback
    exact (hreach _ hmembers i hi j).mpr ⟨List.mem_cons.mp hj, hback⟩
  · rintro ⟨hcovers, hreach⟩
    refine ⟨hcovers, fun members hmembers i hi j => ?_⟩
    rw [reflTransGen_iff, reflTransGen_iff]
    rcases hreach members hmembers i hi with ⟨hforth, hback⟩
    exact ⟨hforth j, fun h => hback j (List.mem_cons.mpr h.1) h.2⟩

instance (g : RequireGraph) (components : List (List Nat)) :
    Decidable (g.IsComponents components) :=
  decidable_of_iff _ isComponents_iff.symm

theorem cyclesFrom_eq (hkeys : g.keys.Nodup) (hclosed : g.IsClosed) {components : List (List Nat)}
    (h : g.IsComponents components) : g.cyclesFrom components = g.cycles :=
  ((h.isClasses hclosed).lists hkeys).eq (listsCycles_cycles hkeys hclosed) hkeys hclosed

/-!
## The graph of any calls
-/

theorem isClosed_ofCalls (calls : List GraphCall) : (ofCalls calls).IsClosed := by
  rintro i j ⟨line, hmem⟩
  rcases (answers_ofCalls calls).mem_edges.mp hmem with ⟨r, _, hedge⟩
  rcases edge?_eq_some.mp hedge with ⟨hsource, htarget, _⟩
  exact ⟨(List.findIdx?_eq_some_iff_getElem.mp hsource).1,
    (List.findIdx?_eq_some_iff_getElem.mp htarget).1⟩

theorem isSimple_ofCalls (calls : List GraphCall) : (ofCalls calls).IsSimple := by
  induction calls using List.reverseRecOn with
  | nil => exact List.Pairwise.nil
  | append_singleton calls call ih =>
      rw [ofCalls_concat]
      cases call with
      | module p id =>
          rw [perform, IsSimple, addModule_edges]
          exact ih
      | require source target line => exact addRequire_simple ih source target line

theorem index?_addModule_self (g : RequireGraph) (p : Path) (id : Option Nat) :
    (g.addModule p id).2.index? p = some (g.addModule p id).1 := by
  unfold addModule
  split
  case h_1 hold => exact hold
  case h_2 hnew =>
    rw [index?] at hnew ⊢
    rw [List.findIdx?_append, hnew]
    simp [List.findIdx?_cons]

theorem path?_of_mem_requiresOf {p q : Path} (h : q ∈ g.requiresOf p) :
    ∃ i, g.path? i = some q := by
  unfold requiresOf at h
  split at h
  · cases h
  · rcases List.mem_filterMap.mp h with ⟨i, _, hi⟩
    exact ⟨i, hi⟩

/-- After any calls the scripts are those added, each where it was first added; the edges are
those first asked for between known scripts; and the cycles are listed. -/
theorem graph_ofCalls (calls : List GraphCall) :
    let g := ofCalls calls
    let requests := requestsFrom [] calls
    g.nodes = firstsBy (·.path.components) (addedNodes calls) ∧
      (∀ p i, g.index? p = some i ↔ ∃ node, g.nodes[i]? = some node ∧ (node.path == p) = true) ∧
      (∀ p id, (g.addModule p id).2.index? p = some (g.addModule p id).1) ∧
      g.edges.map some = (firstsBy EdgeRequest.ends requests).map g.edge? ∧
      g.IsSimple ∧
      (∀ p, (g.requiresOf p).map Path.components =
          ((requests.filter (·.source == p)).map (·.target.components)).eraseDups ∧
        ∀ q ∈ g.requiresOf p, ∃ i, g.path? i = some q) ∧
      g.ListsCycles g.cycles ∧
      ∀ components, g.IsComponents components → g.cyclesFrom components = g.cycles := by
  intro g requests
  have hkeys : g.keys.Nodup := keys_nodup calls
  have hclosed : g.IsClosed := isClosed_ofCalls calls
  refine ⟨nodes_ofCalls calls, ?_, g.index?_addModule_self, answers_ofCalls calls,
    isSimple_ofCalls calls, fun p => ⟨requiresOf_ofCalls calls p, fun _ => path?_of_mem_requiresOf⟩,
    listsCycles_cycles hkeys hclosed, fun _ => cyclesFrom_eq hkeys hclosed⟩
  intro p i
  rw [index?_eq_some hkeys, keys, List.getElem?_map, Option.map_eq_some_iff]
  exact exists_congr fun node => and_congr_right fun _ => Path.beq_iff.symm

/-- Four scripts, of which two require each other and one requires itself. -/
def mutualCalls : List GraphCall :=
  let path (name : String) : Path := ⟨"/project/" ++ name ++ ".lua"⟩
  [.module (path "main") none, .module (path "a") (some 1), .require (path "main") (path "a") 1,
    .require (path "main") (path "b") 2, .module (path "b") (some 2),
    .require (path "a") (path "b") 1, .require (path "b") (path "./a") 1,
    .require (path "a") (path "b") 7, .module (path "c") (some 3),
    .require (path "c") (path "c") 1]

theorem graph_ofCalls_mutual :
    (ofCalls mutualCalls).IsComponents [[2, 1], [0], [3]] ∧
      (ofCalls mutualCalls).cyclesFrom [[2, 1], [0], [3]] = (ofCalls mutualCalls).cycles ∧
      (ofCalls mutualCalls).edges = [⟨0, 1, 1⟩, ⟨1, 2, 1⟩, ⟨2, 1, 1⟩, ⟨3, 3, 1⟩] ∧
      (ofCalls mutualCalls).cycles = (ofCalls mutualCalls).listClasses [[1, 2], [3]] := by
  rcases graph_ofCalls mutualCalls with ⟨_, _, _, _, _, _, _, hcycles⟩
  have hcomponents : (ofCalls mutualCalls).IsComponents [[2, 1], [0], [3]] := by decide +kernel
  have hclasses : (ofCalls mutualCalls).classes = [[1, 2], [3]] := by decide +kernel
  exact ⟨hcomponents, hcycles _ hcomponents, by decide +kernel, hclasses ▸ cycles_eq _⟩

end RequireGraph
end LuaBundle
