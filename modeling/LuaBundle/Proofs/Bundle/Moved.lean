import LuaBundle.Proofs.Bundle.Faults
import LuaBundle.Proofs.Project.Moved

/-!
# Discoveries under two roots

A discovery of one tree under two roots reads the same scripts in the same order, gives them
the same numbers and makes the same trees, or stops at the same fault.
-/

namespace LuaBundle

open FileSystem Lua

/-!
## What a discovery may look up

Two projects correspond when one is the other under another root.
-/

/-- Whether a script that can be reached asks for a module. -/
structure Explorer.Asks (x : Explorer) (s : Location) (name : String) : Prop where
  reached : x.Reachable s
  asked : ∃ chunk line, x.parse s = .ok chunk ∧ .call (.module name line) ∈ blockStops chunk.body

inductive Explorer.LooksUp (x : Explorer) : Path → Prop where
  | script {s} (hs : x.Reachable s) : x.LooksUp s.path
  | search {s name path} (h : x.Asks s name) (hpath : x.resolver.LooksUp x.files s name path) :
      x.LooksUp path

/-- Whether two discoveries are of the same tree below two roots. -/
structure Explorer.Moved (p q : Place) (x x' : Explorer) : Prop where
  tree : SameTree x.files x'.files p q
  proper : x.files.HasProperPlace
  proper' : x'.files.HasProperPlace
  resolver : x.resolver.Moved p q x'.resolver
  entry : x.entry.Moved p q x'.entry
  mains : x.files.HasInnerMains p
  names : ∀ s name, x.Asks s name → IsRelativeName name
  fits : ∀ path, x.LooksUp path → path.FitsAlike p q

/-- Whether the same has been discovered below two roots.  The graph of calls is left out. -/
structure Discovery.Moved (p q : Place) (d d' : Discovery) : Prop where
  known : d.known.Moved p q d'.known
  table : List.Forall₂ (fun e e' => Path.Moved p q e.1 e'.1 ∧ e.2 = e'.2) d.table d'.table
  trees : d.trees = d'.trees
  parsed : List.Forall₂ (Path.MovedBelow p q) d.parsed d'.parsed

/-- Whether two steps of discoveries give the same and come to corresponding states. -/
abbrev MovedStep (p q : Place) :
    Except BundleError (α × Discovery) → Except BundleError (α × Discovery) → Prop :=
  MovedOutcome p q fun a b => a.1 = b.1 ∧ a.2.Moved p q b.2

/-!
## Room
-/

/-- Whether a discovery has room for so many more scripts that are nested. -/
structure Explorer.HasRoom (x : Explorer) (depth : Nat) (d : Discovery) : Prop where
  sound : d.walked.Sound x
  room : x.files.entries.length ≤ depth + d.walked.met.length

section Room

variable {x : Explorer} {s t : Location} {name : String} {depth : Nat} {d d₁ : Discovery}
  {known : Known}

def Discovery.opened (d : Discovery) (known : Known) (requester target : Path) (line : Nat) :
    Discovery :=
  (Discovery.number { d with known } target).2.connect requester target line

theorem walked_opened (d : Discovery) (known : Known) (requester target : Path) (line : Nat) :
    (d.opened known requester target line).walked = ⟨known, d.walked.met ++ [target]⟩ := by
  simp [Discovery.opened, Discovery.number, Discovery.connect, Discovery.walked]

theorem Explorer.HasRoom.opened (hproper : x.files.HasProperPlace) (h : x.HasRoom depth d)
    (hrun : x.resolver.resolve x.files s name d.known = (.ok (some t), known))
    (hentry : (t.path == x.entry.path) = false) (hnew : d.table.lookup t.path = none)
    (line : Nat) :
    (d.opened known s.path t.path line).walked.Sound x ∧ x.files.entries.length + 1 ≤
      depth + (d.opened known s.path t.path line).walked.met.length := by
  have hmet : d.walked.met.contains t.path = false := by
    rw [Discovery.walked, contains_iff_lookup, hnew]
    rfl
  have hperform : x.perform d.walked (.pass s (.call (.module name line))) =
      .ok ([.read t], ⟨known, d.walked.met ++ [t.path]⟩) := by
    change x.arrive d.walked s name line (x.resolver.resolve x.files s name d.known) = _
    rw [hrun, Explorer.arrive, hentry, hmet]
    rfl
  have hroom := h.room
  rw [walked_opened]
  constructor
  · exact h.sound.perform hproper hperform
  · rw [List.length_append, List.length_singleton]
    omega

theorem Explorer.HasRoom.pass (hproper : x.files.HasProperPlace) (h : x.HasRoom depth d)
    {stop : WalkStop} {answers : Answers}
    (hrun : x.pass (x.explore depth) s stop d = .ok (answers, d₁)) : x.HasRoom depth d₁ := by
  have hagrees := pass_agrees (s := s) hproper (explore_agrees hproper depth) stop h.sound h.room
  rw [hrun] at hagrees
  have hgrown := hagrees.grown d₁ rfl
  have hroom := h.room
  constructor
  case sound => exact hagrees.sound d₁ rfl
  case room => omega

end Room

/-!
## Steps
-/

section Steps

variable {p q : Place} {x x' : Explorer} {s s' : Location} {d d' : Discovery} {name : String}
  {depth depth' : Nat} {chunk : Chunk}

/-- Whether explorations correspond that are nested so deep, when there is room for them. -/
def Explorer.MovesBelow (p q : Place) (x x' : Explorer) (depth depth' : Nat) : Prop :=
  ∀ s s' d d', s.Moved p q s' → d.Moved p q d' → x.Reachable s →
    d.walked.Sound x → x.files.entries.length + 1 ≤ depth + d.walked.met.length →
    d'.walked.Sound x' → x'.files.entries.length + 1 ≤ depth' + d'.walked.met.length →
    MovedStep p q (x.explore depth s d) (x'.explore depth' s' d')

theorem parse_moved (hx : x.Moved p q x') (hs : s.Moved p q s') (hreached : x.Reachable s) :
    MovedOutcome p q Eq (x.parse s) (x'.parse s') := by
  have hpath := hx.tree.moved hs.path
  unfold Explorer.parse
  rw [hx.tree.read hpath (hx.fits _ (.script hreached) _ hpath)]
  cases x'.files.read s'.path with
  | error e => exact .error ⟨hpath, rfl⟩
  | ok bytes =>
    cases hparse : parseBytes bytes with
    | error e =>
      simp only [hparse, Except.mapError]
      exact .error ⟨hpath, rfl⟩
    | ok chunk =>
      simp only [hparse, Except.mapError]
      exact .ok rfl

theorem Discovery.Moved.opened (hd : d.Moved p q d') {known known' : Known}
    (hknown : known.Moved p q known') {t t' : Path} (ht : Path.Moved p q t t') (r r' : Path)
    (line : Nat) : Discovery.Moved p q (d.opened known r t line) (d'.opened known' r' t' line) := by
  constructor
  case known => exact hknown
  case table =>
    apply List.rel_append hd.table
    exact .cons ⟨ht, by rw [hd.table.length_eq]⟩ .nil
  case trees => exact hd.trees
  case parsed => exact hd.parsed

theorem Discovery.Moved.store (hd : d.Moved p q d') {id id' : Nat} {tree tree' : Chunk}
    (hid : id = id') (htree : tree = tree') :
    Discovery.Moved p q (d.store id tree) (d'.store id' tree') := by
  subst hid htree
  exact ⟨hd.known, hd.table, congrArg (fun trees => trees.insert id tree) hd.trees, hd.parsed⟩

theorem require_moved (hx : x.Moved p q x') (hbelow : x.MovesBelow p q x' depth depth')
    (hs : s.Moved p q s') (hd : d.Moved p q d') (hasks : x.Asks s name) (line : Nat)
    (hroom : x.HasRoom depth d) (hroom' : x'.HasRoom depth' d') :
    MovedStep p q (x.require (x.explore depth) s name line d)
      (x'.require (x'.explore depth') s' name line d') := by
  have hreached := hasks.reached
  obtain ⟨chunk, line', hparse, hcall⟩ := hasks.asked
  have hsearch := resolve_moved hx.tree hx.mains hx.resolver hs (hx.names s name hasks)
    fun path hpath => hx.fits path (.search hasks hpath)
  obtain ⟨hanswer, hknown⟩ := hsearch.run hd.known
  rw [require_eq, require_eq]
  unfold Explorer.find
  rcases hrun : x.resolver.resolve x.files s name d.known with ⟨outcome, known⟩
  rcases hrun' : x'.resolver.resolve x'.files s' name d'.known with ⟨outcome', known'⟩
  rw [hrun, hrun'] at hanswer hknown
  have hpath := hx.tree.moved hs.path
  rcases hanswer.cases with ⟨e, e', rfl, rfl, he⟩ | ⟨found, found', rfl, rfl, hfound⟩
  · exact .error he
  cases hfound with
  | none => exact .error ⟨hpath, rfl⟩
  | @some t t' ht =>
    have hmoved := hx.tree.moved ht.path
    have hsame : (t.path == x.entry.path) = (t'.path == x'.entry.path) :=
      hmoved.beq hx.tree.root.proper hx.tree.root'.proper (hx.tree.moved hx.entry.path)
    have hlookup := lookup_moved hx.tree.root.proper hx.tree.root'.proper hd.table hmoved
    simp only
    cases hentry' : t'.path == x'.entry.path with
    | true =>
      have hentry : (t.path == x.entry.path) = true := hsame.trans hentry'
      simp only [hentry, if_true]
      exact .error ⟨hpath, rfl⟩
    | false =>
      have hentry : (t.path == x.entry.path) = false := hsame.trans hentry'
      simp only [hentry, Bool.false_eq_true, if_false]
      cases hnumber : d.table.lookup t.path with
      | some id =>
        cases hnumber' : d'.table.lookup t'.path with
        | none =>
          rw [hnumber, hnumber'] at hlookup
          cases hlookup
        | some id' =>
          rw [hnumber, hnumber'] at hlookup
          cases hlookup with
          | some heq => exact .ok ⟨heq, hknown, hd.table, hd.trees, hd.parsed⟩
      | none =>
        cases hnumber' : d'.table.lookup t'.path with
        | some id' =>
          rw [hnumber, hnumber'] at hlookup
          cases hlookup
        | none =>
          obtain ⟨hsound, hmore⟩ := hroom.opened hx.proper hrun hentry hnumber line
          obtain ⟨hsound', hmore'⟩ := hroom'.opened hx.proper' hrun' hentry' hnumber' line
          have hleads : x.leadsTo d.known s name = some t := by
            unfold Explorer.leadsTo
            rw [hrun]
          have hreach := hreached.call hparse hcall hroom.sound.known hleads
          have hopened := hd.opened hknown hmoved s.path s'.path line
          have hexplored := hbelow t t' _ _ ht hopened hreach hsound hmore hsound' hmore'
          unfold Discovery.opened at hexplored
          have hid : d.table.length + 1 = d'.table.length + 1 := by rw [hd.table.length_eq]
          rcases hexplored.cases with ⟨e, e', hfail, hfail', he⟩ |
            ⟨⟨tree, d₂⟩, ⟨tree', d₂'⟩, hdone, hdone', htree, hmore⟩
          · simp only [hfail, hfail']
            exact .error he
          · simp only [hdone, hdone']
            exact .ok ⟨hid, hmore.store hid htree⟩

theorem pass_moved (hx : x.Moved p q x') (hbelow : x.MovesBelow p q x' depth depth')
    (hs : s.Moved p q s') (hd : d.Moved p q d') (hreached : x.Reachable s)
    (hparse : x.parse s = .ok chunk) {stop : WalkStop} (hstop : stop ∈ blockStops chunk.body)
    (hroom : x.HasRoom depth d) (hroom' : x'.HasRoom depth' d') :
    MovedStep p q (x.pass (x.explore depth) s stop d) (x'.pass (x'.explore depth') s' stop d') := by
  have hpath := hx.tree.moved hs.path
  cases stop with
  | name n =>
    by_cases hreserved : reservedStart.toList.isPrefixOf n.text.toList = true
    · rw [Explorer.pass, Explorer.pass, if_pos hreserved, if_pos hreserved]
      exact .error ⟨hpath, rfl⟩
    · rw [Explorer.pass, Explorer.pass, if_neg hreserved, if_neg hreserved]
      exact .ok ⟨rfl, hd⟩
  | call call =>
    cases call with
    | unsupported line => exact .error ⟨hpath, rfl⟩
    | module name line =>
      have hasks : x.Asks s name := ⟨hreached, chunk, line, hparse, hstop⟩
      have hrequire := require_moved hx hbelow hs hd hasks line hroom hroom'
      rw [Explorer.pass, Explorer.pass]
      simp only [bind, StateT.bind, Except.bind, discover_pure]
      rcases hrequire.cases with ⟨e, e', hfail, hfail', he⟩ |
        ⟨⟨id, d₁⟩, ⟨id', d₁'⟩, hdone, hdone', hid, hmoved⟩
      · rw [hfail, hfail']
        exact .error he
      · rw [hdone, hdone']
        exact .ok ⟨congrArg (fun id => [(name, id)]) hid, hmoved⟩

theorem passAll_moved (hx : x.Moved p q x') (hbelow : x.MovesBelow p q x' depth depth')
    (hs : s.Moved p q s') (hd : d.Moved p q d') (hreached : x.Reachable s)
    (hparse : x.parse s = .ok chunk) {stops : List WalkStop}
    (hstops : ∀ stop ∈ stops, stop ∈ blockStops chunk.body) (hroom : x.HasRoom depth d)
    (hroom' : x'.HasRoom depth' d') :
    MovedStep p q (x.passAll (x.explore depth) s stops d)
      (x'.passAll (x'.explore depth') s' stops d') := by
  induction stops generalizing d d' with
  | nil => exact .ok ⟨rfl, hd⟩
  | cons stop stops ih =>
    rw [List.forall_mem_cons] at hstops
    have hpass := pass_moved hx hbelow hs hd hreached hparse hstops.1 hroom hroom'
    rw [Explorer.passAll, Explorer.passAll]
    simp only [bind, StateT.bind, Except.bind, discover_pure]
    rcases hpass.cases with ⟨e, e', hfail, hfail', he⟩ |
      ⟨⟨first, d₁⟩, ⟨first', d₁'⟩, hdone, hdone', hfirst, hmoved⟩
    · simp only [hfail, hfail']
      exact .error he
    · have hmore := ih hmoved hstops.2 (hroom.pass hx.proper hdone) (hroom'.pass hx.proper' hdone')
      simp only [hdone, hdone']
      rcases hmore.cases with ⟨e, e', hfail, hfail', he⟩ |
        ⟨⟨more, d₂⟩, ⟨more', d₂'⟩, hrest, hrest', heq, hlast⟩
      · simp only [hfail, hfail']
        exact .error he
      · simp only [hrest, hrest']
        have hanswers : first ++ more = first' ++ more' := congr (congrArg _ hfirst) heq
        exact .ok ⟨hanswers, hlast⟩

/-!
## Explorations
-/

/-- Explorations correspond: the calls are answered by the same numbers, so the trees are the
same. -/
theorem explore_moved (hx : x.Moved p q x') (depth depth' : Nat) :
    x.MovesBelow p q x' depth depth' := by
  induction depth generalizing depth' with
  | zero =>
    intro s s' d d' _ _ _ hsound hroom _ _
    have hbound := hsound.bound
    omega
  | succ depth ih =>
    cases depth' with
    | zero =>
      intro s s' d d' _ _ _ _ _ hsound' hroom'
      have hbound := hsound'.bound
      omega
    | succ depth' =>
      intro s s' d d' hs hd hreached hsound hroom hsound' hroom'
      have hentered : Discovery.Moved p q (d.enter s.path) (d'.enter s'.path) :=
        ⟨hd.known, hd.table, hd.trees, List.rel_append hd.parsed (.cons hs.path .nil)⟩
      rw [explore_eq, explore_eq]
      rcases (parse_moved hx hs hreached).cases with
        ⟨e, e', hparse, hparse', he⟩ | ⟨chunk, chunk', hparse, hparse', rfl⟩
      · rw [hparse, hparse']
        exact .error he
      · have hpasses := passAll_moved hx (ih depth') hs hentered hreached hparse
          (fun _ hstop => hstop) ⟨hsound, by change _ ≤ depth + d.walked.met.length; omega⟩
          ⟨hsound', by change _ ≤ depth' + d'.walked.met.length; omega⟩
        have hwalk := (block_follows x (x.explore depth) s chunk.body).run (d.enter s.path)
        have hwalk' := (block_follows x' (x'.explore depth') s' chunk.body).run (d'.enter s'.path)
        rw [hparse, hparse']
        simp only
        rcases hpasses.cases with ⟨e, e', hfail, hfail', he⟩ |
          ⟨⟨answers, d₁⟩, ⟨answers', d₁'⟩, hdone, hdone', hanswers, hmoved⟩
        · rw [hfail] at hwalk
          rw [hfail'] at hwalk'
          simp only at hwalk hwalk'
          rw [hwalk, hwalk']
          exact .error he
        · obtain ⟨new, hvisits⟩ := visits_of_passAll (explored_of_explore x depth) s _ _ _ _ hdone
          have hagree := (hvisits.passes (Grown.refl d₁)).1
          rw [hdone] at hwalk
          rw [hdone'] at hwalk'
          obtain ⟨body, hrun, hbody⟩ := hwalk
          obtain ⟨body', hrun', hbody'⟩ := hwalk'
          have hagree' : answers'.Agree (x.numberOf d₁ s) := by
            rw [← show answers = answers' from hanswers]
            exact hagree
          have hsame : body = body' := by rw [hbody _ hagree, hbody' _ hagree']
          rw [hrun, hrun', hsame]
          exact .ok ⟨rfl, hmoved⟩

end Steps

end LuaBundle
