import LuaBundle.Proofs.Bundle.Edges
import LuaBundle.Proofs.Merge

/-!
# The graph after any calls

A graph is built by calls in any order: scripts are added, again or for the first time, and
edges between scripts that are there or not.  Only first additions and first edges count.
-/

namespace LuaBundle

/-!
## Calls

A graph is what calls have made of it.  A call that adds an edge does nothing where one of the
scripts is not known.
-/

/-- A call that adds to a graph. -/
inductive GraphCall where
  | module (path : Path) (id : Option Nat)
  | require (source target : Path) (line : Nat)
deriving Repr

/-- An edge between two scripts, as a call asks for it. -/
structure EdgeRequest where
  source : Path
  target : Path
  line : Nat
deriving Repr

def EdgeRequest.ends (r : EdgeRequest) : List Path.Component × List Path.Component :=
  (r.source.components, r.target.components)

def GraphCall.node? : GraphCall → Option GraphNode
  | .module path id => some ⟨path, id⟩
  | .require _ _ _ => none

def addedNodes (calls : List GraphCall) : List GraphNode :=
  calls.filterMap GraphCall.node?

/-- The edges that calls ask for between scripts known before the call. -/
def requestsFrom (known : List Path) : List GraphCall → List EdgeRequest
  | [] => []
  | .module path _ :: rest => requestsFrom (path :: known) rest
  | .require source target line :: rest =>
      if known.contains source && known.contains target then
        ⟨source, target, line⟩ :: requestsFrom known rest
      else requestsFrom known rest

theorem requestsFrom_append (known : List Path) (calls more : List GraphCall) :
    requestsFrom known (calls ++ more) =
      requestsFrom known calls ++
        requestsFrom (((addedNodes calls).map GraphNode.path).reverse ++ known) more := by
  induction calls generalizing known with
  | nil => rfl
  | cons call rest ih =>
      cases call with
      | module path id =>
          simp [requestsFrom, ih, addedNodes, GraphCall.node?]
      | require source target line =>
          have hadded : addedNodes (.require source target line :: rest) = addedNodes rest := rfl
          simp only [List.cons_append, requestsFrom, hadded, ih]
          split <;> rfl

namespace RequireGraph

def perform (g : RequireGraph) : GraphCall → RequireGraph
  | .module path id => (g.addModule path id).2
  | .require source target line => g.addRequire source target line

def ofCalls (calls : List GraphCall) : RequireGraph :=
  calls.foldl perform {}

theorem ofCalls_concat (calls : List GraphCall) (call : GraphCall) :
    ofCalls (calls ++ [call]) = (ofCalls calls).perform call := by
  rw [ofCalls, List.foldl_append]
  rfl

/-!
## Positions
-/

def keys (g : RequireGraph) : List (List Path.Component) :=
  g.nodes.map (·.path.components)

theorem index?_eq (g : RequireGraph) (p : Path) : g.index? p = g.keys.idxOf? p.components := by
  rw [keys, List.idxOf?, List.findIdx?_map]
  rfl

theorem index?_isSome {g : RequireGraph} {p : Path} :
    (g.index? p).isSome = true ↔ p.components ∈ g.keys := by
  rw [index?_eq, List.isSome_idxOf?]

theorem index?_eq_some {g : RequireGraph} (hkeys : g.keys.Nodup) {p : Path} {i : Nat} :
    g.index? p = some i ↔ g.keys[i]? = some p.components := by
  rw [index?_eq, List.idxOf?_eq_some_iff, List.getElem?_eq_some_iff]
  refine exists_congr fun hi => and_iff_left_of_imp fun heq => ?_
  intro j hj hsame
  exact Nat.ne_of_lt hj (hkeys.getElem_inj_iff.mp (hsame.trans heq.symm))

def edge? (g : RequireGraph) (r : EdgeRequest) : Option GraphEdge := do
  return ⟨← g.index? r.source, ← g.index? r.target, r.line⟩

/-!
## Scripts
-/

theorem addModule_nodes (g : RequireGraph) (p : Path) (id : Option Nat) :
    (g.addModule p id).2.nodes =
      if p.components ∈ g.keys then g.nodes else g.nodes ++ [⟨p, id⟩] := by
  simp only [← index?_isSome]
  unfold addModule
  split
  case h_1 heq => rw [heq]; rfl
  case h_2 heq => rw [heq]; rfl

theorem addModule_edges (g : RequireGraph) (p : Path) (id : Option Nat) :
    (g.addModule p id).2.edges = g.edges := by
  unfold addModule
  split <;> rfl

theorem nodes_ofCalls (calls : List GraphCall) :
    (ofCalls calls).nodes = firstsBy (·.path.components) (addedNodes calls) := by
  induction calls using List.reverseRecOn with
  | nil => rfl
  | append_singleton calls call ih =>
      rw [ofCalls_concat, addedNodes, List.filterMap_append]
      cases call with
      | require source target line =>
          rw [perform, addRequire_nodes, ih]
          exact congrArg _ (List.append_nil _).symm
      | module path id =>
          rw [perform, addModule_nodes, keys, ih]
          exact (firstsBy_concat _ (addedNodes calls) ⟨path, id⟩).symm

theorem mem_keys_ofCalls {calls : List GraphCall} {k : List Path.Component} :
    k ∈ (ofCalls calls).keys ↔ k ∈ (addedNodes calls).map (·.path.components) := by
  rw [keys, nodes_ofCalls]
  exact mem_firstsBy_keys

theorem keys_nodup (calls : List GraphCall) : (ofCalls calls).keys.Nodup := by
  rw [keys, nodes_ofCalls]
  exact firstsBy_nodup _ _

/-!
## Edges
-/

theorem edge?_eq_some {g : RequireGraph} {r : EdgeRequest} {e : GraphEdge} :
    g.edge? r = some e ↔
      g.index? r.source = some e.source ∧ g.index? r.target = some e.target ∧ r.line = e.line := by
  rcases e with ⟨i, j, line⟩
  simp only [edge?, Option.bind_eq_bind, Option.bind_eq_some_iff, Option.pure_def,
    Option.some.injEq, GraphEdge.mk.injEq]
  constructor
  · rintro ⟨i', hi, j', hj, rfl, rfl, hline⟩
    exact ⟨hi, hj, hline⟩
  · rintro ⟨hi, hj, hline⟩
    exact ⟨i, hi, j, hj, rfl, rfl, hline⟩

theorem edge?_congr {g g' : RequireGraph} (h : g.nodes = g'.nodes) (r : EdgeRequest) :
    g.edge? r = g'.edge? r := by
  simp only [edge?, index?, h]

theorem index?_addModule {g : RequireGraph} {p q : Path} {id : Option Nat}
    (h : q.components ∈ g.keys) : (g.addModule p id).2.index? q = g.index? q := by
  rcases Option.isSome_iff_exists.mp (index?_isSome.mpr h) with ⟨i, hi⟩
  rw [hi]
  refine findIdx_of_isPrefix ?_ hi
  rw [addModule_nodes]
  split
  · exact List.prefix_refl _
  · exact List.prefix_append _ _

theorem contains_iff_mem_keys {calls : List GraphCall} {p : Path} :
    (((addedNodes calls).map GraphNode.path).reverse ++ []).contains p = true ↔
      p.components ∈ (ofCalls calls).keys := by
  rw [mem_keys_ofCalls, List.append_nil, List.contains_reverse, List.contains_iff_exists_mem_beq,
    List.mem_map]
  simp only [List.mem_map, exists_exists_and_eq_and, Path.beq_iff]
  exact exists_congr fun node => and_congr_right fun _ => eq_comm

theorem requests_require (calls : List GraphCall) (source target : Path) (line : Nat) :
    requestsFrom [] (calls ++ [.require source target line]) =
      if source.components ∈ (ofCalls calls).keys ∧ target.components ∈ (ofCalls calls).keys then
        requestsFrom [] calls ++ [⟨source, target, line⟩]
      else requestsFrom [] calls := by
  simp only [requestsFrom_append, requestsFrom, Bool.and_eq_true, contains_iff_mem_keys]
  split
  · rfl
  · exact List.append_nil _

theorem requests_module (calls : List GraphCall) (p : Path) (id : Option Nat) :
    requestsFrom [] (calls ++ [.module p id]) = requestsFrom [] calls := by
  rw [requestsFrom_append]
  exact List.append_nil _

theorem requests_known {calls : List GraphCall} {r : EdgeRequest}
    (h : r ∈ requestsFrom [] calls) :
    r.source.components ∈ (ofCalls calls).keys ∧ r.target.components ∈ (ofCalls calls).keys := by
  induction calls using List.reverseRecOn with
  | nil => cases h
  | append_singleton calls call ih =>
      simp only [mem_keys_ofCalls, addedNodes, List.filterMap_append, List.map_append,
        List.mem_append] at ih ⊢
      cases call with
      | module p id =>
          rw [requests_module] at h
          exact ⟨Or.inl (ih h).1, Or.inl (ih h).2⟩
      | require source target line =>
          rw [requests_require] at h
          split at h
          case isFalse => exact ⟨Or.inl (ih h).1, Or.inl (ih h).2⟩
          case isTrue hknown =>
            simp only [mem_keys_ofCalls, addedNodes] at hknown
            rcases List.mem_append.mp h with h | h
            · exact ⟨Or.inl (ih h).1, Or.inl (ih h).2⟩
            · cases List.mem_singleton.mp h
              exact ⟨Or.inl hknown.1, Or.inl hknown.2⟩

/-- Whether the edges are those of the first requests for each pair of ends. -/
def Answers (g : RequireGraph) (requests : List EdgeRequest) : Prop :=
  g.edges.map some = (firstsBy EdgeRequest.ends requests).map g.edge?

theorem Answers.mem_edges {g : RequireGraph} {requests : List EdgeRequest}
    (h : g.Answers requests) {e : GraphEdge} :
    e ∈ g.edges ↔ ∃ r ∈ firstsBy EdgeRequest.ends requests, g.edge? r = some e := by
  rw [← List.mem_map, ← h]
  simp

theorem Answers.hasEdge_iff {g : RequireGraph} {requests : List EdgeRequest}
    (h : g.Answers requests) (hkeys : g.keys.Nodup) {p q : Path} {i j : Nat}
    (hp : g.index? p = some i) (hq : g.index? q = some j) :
    g.hasEdge i j = true ↔
      (p.components, q.components) ∈ (firstsBy EdgeRequest.ends requests).map EdgeRequest.ends := by
  have hsame : ∀ {p' q' : Path} {k : Nat}, g.index? p' = some k → g.index? q' = some k →
      p'.components = q'.components := by
    intro p' q' k hp' hq'
    rw [index?_eq_some hkeys] at hp' hq'
    exact Option.some.inj (hp'.symm.trans hq')
  rw [← joins_iff, Joins, List.mem_map]
  constructor
  · rintro ⟨line, hmem⟩
    rcases h.mem_edges.mp hmem with ⟨r, hr, he⟩
    rcases edge?_eq_some.mp he with ⟨hsource, htarget, _⟩
    exact ⟨r, hr, Prod.ext (hsame hsource hp) (hsame htarget hq)⟩
  · rintro ⟨r, hr, hends⟩
    rcases Prod.mk.inj hends with ⟨hsource, htarget⟩
    refine ⟨r.line, h.mem_edges.mpr ⟨r, hr, edge?_eq_some.mpr ⟨?_, ?_, rfl⟩⟩⟩
    · rw [index?_eq, hsource, ← index?_eq]
      exact hp
    · rw [index?_eq, htarget, ← index?_eq]
      exact hq

theorem Answers.addRequire {g : RequireGraph} {requests : List EdgeRequest}
    (h : g.Answers requests) (hkeys : g.keys.Nodup) {p q : Path} {line : Nat} :
    (g.addRequire p q line).Answers
      (if p.components ∈ g.keys ∧ q.components ∈ g.keys then requests ++ [⟨p, q, line⟩]
      else requests) := by
  have hedge : (g.addRequire p q line).edge? = g.edge? :=
    funext (edge?_congr (addRequire_nodes g p q line))
  rw [Answers, hedge]
  simp only [← index?_isSome]
  unfold RequireGraph.addRequire
  cases hp : g.index? p with
  | none => exact h
  | some i =>
      cases hq : g.index? q with
      | none => exact h
      | some j =>
          have hnew : g.edge? ⟨p, q, line⟩ = some ⟨i, j, line⟩ :=
            edge?_eq_some.mpr ⟨hp, hq, rfl⟩
          have hends : EdgeRequest.ends ⟨p, q, line⟩ = (p.components, q.components) := rfl
          simp only [Option.isSome_some, and_self, if_true, firstsBy_concat, hends,
            h.hasEdge_iff hkeys hp hq]
          split
          case isTrue => exact h
          case isFalse =>
            rw [List.map_append, List.map_append, h, List.map_singleton, List.map_singleton, hnew]

theorem answers_ofCalls (calls : List GraphCall) :
    (ofCalls calls).Answers (requestsFrom [] calls) := by
  induction calls using List.reverseRecOn with
  | nil => rfl
  | append_singleton calls call ih =>
      rw [ofCalls_concat]
      cases call with
      | require source target line =>
          rw [requests_require]
          exact ih.addRequire (keys_nodup calls)
      | module p id =>
          rw [requests_module, perform, Answers, addModule_edges, ih]
          refine List.map_congr_left fun r hr => ?_
          rcases requests_known (mem_of_mem_firstsBy hr) with ⟨hsource, htarget⟩
          rw [edge?, edge?, index?_addModule hsource, index?_addModule htarget]

theorem Answers.edges_eq {g : RequireGraph} {requests : List EdgeRequest}
    (h : g.Answers requests) :
    g.edges = (firstsBy EdgeRequest.ends requests).filterMap g.edge? := by
  have hsome := congrArg (List.filterMap id) h
  rw [List.filterMap_map, List.filterMap_map] at hsome
  exact (List.filterMap_some).symm.trans hsome

theorem Answers.isSome_edge? {g : RequireGraph} {requests : List EdgeRequest}
    (h : g.Answers requests) {r : EdgeRequest} (hr : r ∈ firstsBy EdgeRequest.ends requests) :
    ∃ e, g.edge? r = some e := by
  have hmem : g.edge? r ∈ g.edges.map some := by
    rw [h]
    exact List.mem_map_of_mem hr
  rcases List.mem_map.mp hmem with ⟨e, _, he⟩
  exact ⟨e, he.symm⟩

/-!
## What a script requires
-/

/-- The scripts that a script requires, up to spelling, are the targets of the first requests
from it. -/
theorem Answers.requiresOf {g : RequireGraph} {requests : List EdgeRequest}
    (h : g.Answers requests) (hkeys : g.keys.Nodup) {p : Path} {i : Nat}
    (hp : g.index? p = some i) :
    (g.requiresOf p).map Path.components =
      ((firstsBy EdgeRequest.ends requests).filter (·.source == p)).map
        (·.target.components) := by
  simp only [RequireGraph.requiresOf, hp, targets, h.edges_eq, ← List.filterMap_eq_filter,
    ← List.filterMap_eq_map, List.filterMap_filterMap]
  refine List.filterMap_congr fun r hr => ?_
  rcases h.isSome_edge? hr with ⟨e, he⟩
  rcases edge?_eq_some.mp he with ⟨hsource, htarget, _⟩
  have hfrom : (e.source == i) = (r.source == p) := by
    rw [Bool.eq_iff_iff, beq_iff_eq, Path.beq_iff]
    rw [index?_eq_some hkeys] at hp hsource
    constructor
    · rintro rfl
      exact Option.some.inj (hsource.symm.trans hp)
    · intro hsame
      rw [hsame] at hsource
      exact (List.getElem?_inj (List.getElem?_eq_some_iff.mp hsource).1 hkeys).mp
        (hsource.trans hp.symm)
  have hto : (g.path? e.target).map Path.components = some r.target.components := by
    rw [index?_eq_some hkeys, keys, List.getElem?_map] at htarget
    rw [path?, Option.map_map]
    exact htarget
  simp only [he, Option.bind_some, Option.guard, hfrom]
  split
  case isTrue =>
    change (g.path? e.target).bind (some ∘ Path.components) = some r.target.components
    rw [← Option.map_eq_bind]
    exact hto
  case isFalse => rfl

theorem requiresOf_ofCalls (calls : List GraphCall) (p : Path) :
    ((ofCalls calls).requiresOf p).map Path.components =
      (((requestsFrom [] calls).filter (·.source == p)).map (·.target.components)).eraseDups := by
  cases hp : (ofCalls calls).index? p with
  | none =>
      have hunknown : (requestsFrom [] calls).filter (·.source == p) = [] := by
        refine List.filter_eq_nil_iff.mpr fun r hr hsource => ?_
        have hknown := (requests_known hr).1
        rw [Path.beq_iff.mp hsource, ← index?_isSome, hp] at hknown
        cases hknown
      rw [requiresOf, hp, hunknown]
      rfl
  | some i =>
      rw [(answers_ofCalls calls).requiresOf (keys_nodup calls) hp, firstsBy_filter]
      · change _ = firstsBy id _
        refine firstsBy_map fun a ha b hb => ?_
        have hsource := Path.beq_iff.mp (BEq.trans (List.mem_filter.mp ha).2
          (BEq.symm (List.mem_filter.mp hb).2))
        simp [EdgeRequest.ends, hsource]
      · intro a b hends
        have hsource : (a.source == b.source) = true := Path.beq_iff.mpr (Prod.mk.inj hends).1
        exact BEq.congr_left hsource

end RequireGraph

end LuaBundle
