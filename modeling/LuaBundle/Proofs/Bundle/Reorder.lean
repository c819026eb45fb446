import LuaBundle.Proofs.Bundle.Charts
import LuaBundle.Proofs.Bundle.StopLines
import LuaBundle.Proofs.Bundle.Success
import LuaBundle.Proofs.Project.Exchange

/-!
# Requires in another order

Two adjacent calls of `require` in a script are exchanged.  Which scripts can be reached does
not depend on the order of calls, and in an unambiguous project those are the ones that a
discovery finds.  In other projects the order decides in which package a script is explored
that both calls lead to, and with it where the calls of that script lead.
-/

namespace LuaBundle

open Lua Text

def Explorer.withFile (x : Explorer) (place : Place) (content : Bytes) : Explorer :=
  { x with files := x.files.put place (.file content) }

def IsLiteralRequire (e : Expr) : Prop :=
  ∃ name line, requireCall? e = some (.module name line)

/-- Whether two bodies say the same but for the order of two adjacent statements that are
calls of `require` with a literal. -/
structure Exchanged (body body' : List Stat) : Prop where
  parts : ∃ front a b back, body = front ++ .call a :: .call b :: back ∧
    IsLiteralRequire a ∧ IsLiteralRequire b ∧
    unlinedBlock body' = unlinedBlock (front ++ .call b :: .call a :: back)

/-!
## Stops in any order
-/

/-- Whether the same stops stand in two bodies, in any order and on any line. -/
def SameStops (body body' : List Stat) : Prop :=
  ∀ stop, stop ∈ (blockStops body).map WalkStop.unlined ↔
    stop ∈ (blockStops body').map WalkStop.unlined

theorem Exchanged.sameStops {body body' : List Stat} (h : Exchanged body body') :
    SameStops body body' := by
  rcases h.parts with ⟨front, a, b, back, rfl, _, _, hbody'⟩
  have hstops : (blockStops body').map WalkStop.unlined =
      (blockStops (front ++ .call b :: .call a :: back)).map WalkStop.unlined := by
    rw [← blockStops_unlined, hbody', blockStops_unlined]
  intro stop
  rw [hstops]
  simp only [blockStops_append, blockStops, Stat.stops, List.map_append, List.mem_append]
  constructor
  · rintro (hfront | ha | hb | hback)
    · exact Or.inl hfront
    · exact Or.inr (Or.inr (Or.inl ha))
    · exact Or.inr (Or.inl hb)
    · exact Or.inr (Or.inr (Or.inr hback))
  · rintro (hfront | hb | ha | hback)
    · exact Or.inl hfront
    · exact Or.inr (Or.inr (Or.inl hb))
    · exact Or.inr (Or.inl ha)
    · exact Or.inr (Or.inr (Or.inr hback))

theorem SameStops.symm {body body' : List Stat} (h : SameStops body body') :
    SameStops body' body := fun stop => (h stop).symm

theorem SameStops.exists {body body' : List Stat} (h : SameStops body body') {stop : WalkStop}
    (hstop : stop ∈ blockStops body) :
    ∃ stop' ∈ blockStops body', stop'.unlined = stop.unlined :=
  List.mem_map.mp ((h _).mp (List.mem_map_of_mem hstop))

theorem SameStops.module {body body' : List Stat} (h : SameStops body body') {name : String}
    {line : Nat} (hstop : .call (.module name line) ∈ blockStops body) :
    ∃ line', .call (.module name line') ∈ blockStops body' := by
  rcases h.exists hstop with ⟨stop', hstop', heq⟩
  cases stop' with
  | name n => cases heq
  | call call =>
      cases call with
      | unsupported line' => cases heq
      | module name' line' =>
          cases heq
          exact ⟨line', hstop'⟩

/-!
## Projects with the same calls
-/

/-- Whether the scripts of two projects have the same stops, and calls lead to the same
scripts. -/
structure Alike (x x' : Explorer) : Prop where
  entry : x.entry = x'.entry
  project : x.IsProject ↔ x'.IsProject
  sound : ∀ known, Known.IsSound x.files known ↔ Known.IsSound x'.files known
  leads : ∀ known s name, x.leadsTo known s name = x'.leadsTo known s name
  parse : ∀ s chunk, x.parse s = .ok chunk →
    ∃ chunk', x'.parse s = .ok chunk' ∧ SameStops chunk.body chunk'.body
  parse' : ∀ s chunk', x'.parse s = .ok chunk' →
    ∃ chunk, x.parse s = .ok chunk ∧ SameStops chunk'.body chunk.body

section Alike

variable {x x' : Explorer} {s : Location}

theorem Alike.symm (h : Alike x x') : Alike x' x where
  entry := h.entry.symm
  project := h.project.symm
  sound known := (h.sound known).symm
  leads known s name := (h.leads known s name).symm
  parse := h.parse'
  parse' := h.parse

theorem Alike.reachable (h : Alike x x') (hs : x.Reachable s) : x'.Reachable s := by
  induction hs with
  | entry =>
      rw [h.entry]
      exact .entry
  | @call s t chunk name line known _ hparse hcall hknown hleads ih =>
      rcases h.parse s chunk hparse with ⟨chunk', hparse', hstops⟩
      rcases hstops.module hcall with ⟨line', hcall'⟩
      rw [h.leads] at hleads
      exact .call ih hparse' hcall' ((h.sound known).mp hknown) hleads

theorem Alike.unambiguous (h : Alike x x') (hclear : x.Unambiguous) : x'.Unambiguous := by
  constructor
  intro s u chunk' name line known known' hs hu hpath hparse' hcall' hknown hknown'
  rcases h.parse' s chunk' hparse' with ⟨chunk, hparse, hstops⟩
  rcases hstops.module hcall' with ⟨line', hcall⟩
  rw [← h.leads, ← h.leads]
  exact hclear.same (h.symm.reachable hs) (h.symm.reachable hu) hpath hparse hcall
    ((h.sound known).mpr hknown) ((h.sound known').mpr hknown')

theorem Alike.allows (h : Alike x x') {stop stop' : WalkStop} (heq : stop'.unlined = stop.unlined)
    (hallows : x.Allows s stop') : x'.Allows s stop := by
  cases stop with
  | name n =>
      cases stop' with
      | name n' =>
          cases heq
          exact hallows
      | call call => cases heq
  | call call =>
      cases stop' with
      | name n' => cases heq
      | call call' =>
          cases call' with
          | unsupported line => exact hallows.elim
          | module name line =>
              cases call with
              | unsupported line' => cases heq
              | module name' line' =>
                  cases heq
                  intro known hknown
                  rw [← h.leads, ← h.entry]
                  exact hallows known ((h.sound known).mpr hknown)

theorem Alike.healthy (h : Alike x x') (hs : x.Healthy s) : x'.Healthy s := by
  rcases hs with ⟨chunk, hparse, hallows⟩
  rcases h.parse s chunk hparse with ⟨chunk', hparse', hstops⟩
  refine ⟨chunk', hparse', ?_⟩
  intro stop hstop
  rcases hstops.symm.exists hstop with ⟨stop', hstop', heq⟩
  exact h.allows heq (hallows stop' hstop')

theorem Alike.succeeds (h : Alike x x') (hproject : x.IsProject) (hclear : x.Unambiguous)
    (hgraph : ∃ graph, x.graph = .ok graph) : ∃ graph, x'.graph = .ok graph := by
  rcases hgraph with ⟨graph, hgraph⟩
  rcases finds_of_graph hgraph with ⟨scripts, hfinds⟩
  apply graph_succeeds (h.project.mp hproject)
  intro s hs
  exact h.healthy (hfinds.healthy hproject hclear (h.symm.reachable hs))

theorem Alike.keys (h : Alike x x') (hproject : x.IsProject) (hclear : x.Unambiguous)
    {graph graph' : ModuleGraph} (hgraph : x.graph = .ok graph) (hgraph' : x'.graph = .ok graph')
    (p : Path) : p ∈ graph.found.table.map Prod.fst ↔ p ∈ graph'.found.table.map Prod.fst := by
  rcases finds_of_graph hgraph with ⟨scripts, hfinds⟩
  rcases finds_of_graph hgraph' with ⟨scripts', hfinds'⟩
  rw [hfinds.keys_iff hproject hclear,
    hfinds'.keys_iff (h.project.mp hproject) (h.unambiguous hclear), h.entry]
  constructor
  · rintro ⟨s, hs, hpath, hne⟩
    exact ⟨s, h.reachable hs, hpath, hne⟩
  · rintro ⟨s, hs, hpath, hne⟩
    exact ⟨s, h.symm.reachable hs, hpath, hne⟩

end Alike

/-!
## A script with two calls exchanged
-/

section Exchange

variable {x : Explorer} {place : Place} {content content' : Bytes} {chunk chunk' : Chunk}
  (hfile : x.files.entry? place = some (.file content))
  (hchunk : parseBytes content = .ok chunk) (hchunk' : parseBytes content' = .ok chunk')
include hfile hchunk hchunk'

theorem leadsTo_withFile (known : Known) (s : Location) (name : String) :
    x.leadsTo known s name = (x.withFile place content').leadsTo known s name := by
  have hagrees := (agrees_resolve hfile hchunk hchunk' x.resolver s name).same known
  unfold Explorer.leadsTo Explorer.withFile
  dsimp only
  generalize x.resolver.resolve x.files s name known = run at hagrees
  generalize x.resolver.resolve (x.files.put place (.file content')) s name known = run' at hagrees
  rcases run with ⟨outcome, _⟩
  rcases run' with ⟨outcome', _⟩
  cases outcome with
  | error e =>
      cases outcome' with
      | error e' => rfl
      | ok answer => cases hagrees.1
  | ok answer =>
      cases outcome' with
      | error e' => cases hagrees.1
      | ok answer' =>
          cases hagrees.1
          rfl

theorem parse_withFile (s : Location) :
    (x.parse s = .ok chunk ∧ (x.withFile place content').parse s = .ok chunk') ∨
      x.parse s = (x.withFile place content').parse s := by
  unfold Explorer.parse Explorer.withFile
  dsimp only
  by_cases hplace : x.files.locate s.path = .ok place
  · left
    rw [FileSystem.read_of_place hfile hplace, FileSystem.read_put_of_place hfile hplace]
    simp only [hchunk, hchunk']
    exact ⟨rfl, rfl⟩
  · right
    rw [FileSystem.read_put_of_ne hfile hplace]

theorem alike_withFile (hsame : SameStops chunk.body chunk'.body) :
    Alike x (x.withFile place content') := by
  have hshape := FileSystem.sameShape_put hfile content'
  constructor
  case entry => rfl
  case project =>
    have hcanonical : ∀ s : Location, s.IsCanonical x.files ↔
        s.IsCanonical (x.withFile place content').files := by
      intro s
      simp only [Location.IsCanonical, Explorer.withFile, hshape.canonicalize]
    constructor
    · rintro ⟨hhere, hentry⟩
      exact ⟨hhere, (hcanonical _).mp hentry⟩
    · rintro ⟨hhere, hentry⟩
      exact ⟨hhere, (hcanonical _).mpr hentry⟩
  case sound => exact sound_put_iff hfile hchunk hchunk'
  case leads => exact leadsTo_withFile hfile hchunk hchunk'
  case parse =>
    intro s found hparse
    rcases parse_withFile hfile hchunk hchunk' s with ⟨hold, hnew⟩ | heq
    · rw [hold, Except.ok.injEq] at hparse
      subst hparse
      exact ⟨chunk', hnew, hsame⟩
    · exact ⟨found, heq ▸ hparse, fun _ => Iff.rfl⟩
  case parse' =>
    intro s found hparse
    rcases parse_withFile hfile hchunk hchunk' s with ⟨hold, hnew⟩ | heq
    · rw [hnew, Except.ok.injEq] at hparse
      subst hparse
      exact ⟨chunk, hold, hsame.symm⟩
    · exact ⟨found, heq ▸ hparse, fun _ => Iff.rfl⟩

/-- In an unambiguous project the exchange of two adjacent calls of `require` in a script
changes neither whether there is a graph nor which modules it has. -/
theorem graph_exchange (hproject : x.IsProject) (hclear : x.Unambiguous)
    (hexchanged : Exchanged chunk.body chunk'.body) :
    ((∃ graph, x.graph = .ok graph) ↔
        ∃ graph, (x.withFile place content').graph = .ok graph) ∧
      ∀ graph graph', x.graph = .ok graph → (x.withFile place content').graph = .ok graph' →
        ∀ p, p ∈ graph.found.table.map Prod.fst ↔ p ∈ graph'.found.table.map Prod.fst := by
  have halike := alike_withFile hfile hchunk hchunk' hexchanged.sameStops
  refine ⟨⟨halike.succeeds hproject hclear, ?_⟩, ?_⟩
  · exact halike.symm.succeeds (halike.project.mp hproject) (halike.unambiguous hclear)
  · intro graph graph' hgraph hgraph'
    exact halike.keys hproject hclear hgraph hgraph'

end Exchange

/-!
## Scripts of two lines

An entry that requires two modules by literals, once in either order.
-/

def twoRequires (first second : String) : Bytes :=
  utf8 ("require ".toList ++ first.toList ++ "\nrequire ".toList ++ second.toList)

def requireStat (literal : StringLit) (line : Nat) : Stat :=
  .call (.call (.name { text := "require" }) (.string literal) false line)

/-- The literal and the line of a statement that requires a module, if it is one. -/
def requireStat? : Stat → Option (StringLit × Nat)
  | .call (.call (.name n) (.string literal) false line) =>
      if n = { text := "require" } then some (literal, line) else none
  | _ => none

theorem eq_requireStat {s : Stat} {literal : StringLit} {line : Nat}
    (h : requireStat? s = some (literal, line)) : s = requireStat literal line := by
  unfold requireStat? at h
  split at h
  · split at h
    · rename_i hname
      cases h
      rw [hname]
      rfl
    · cases h
  · cases h

theorem eq_requireStats {body : List Stat} {rows : List (StringLit × Nat)}
    (h : body.mapM requireStat? = some rows) :
    body = rows.map fun row => requireStat row.1 row.2 := by
  induction body generalizing rows with
  | nil =>
      cases h
      rfl
  | cons s body ih =>
      simp only [List.mapM_cons, Option.bind_eq_bind, Option.bind_eq_some_iff, Option.pure_def,
        Option.some.injEq] at h
      rcases h with ⟨row, hrow, rest, hrest, rfl⟩
      rw [List.map_cons, ← ih hrest, ← eq_requireStat hrow]

theorem body_of_twoRequires {bytes : Bytes} {a b : StringLit} {i j : Nat}
    (h : ((parseBytes bytes).toOption.bind fun chunk => chunk.body.mapM requireStat?) =
      some [(a, i), (b, j)]) :
    ∃ chunk, parseBytes bytes = .ok chunk ∧ chunk.body = [requireStat a i, requireStat b j] := by
  cases hparse : parseBytes bytes with
  | error e => simp [hparse, Except.toOption] at h
  | ok chunk =>
      rw [hparse] at h
      exact ⟨chunk, rfl, eq_requireStats h⟩

theorem exchanged_twoRequires {body body' : List Stat} {a b : StringLit} {i j i' j' : Nat}
    (h : body = [requireStat a i, requireStat b j])
    (h' : body' = [requireStat { b with line := i' } i', requireStat { a with line := j' } j']) :
    Exchanged body body' := by
  subst h h'
  constructor
  exact ⟨[], _, _, [], rfl, ⟨_, _, rfl⟩, ⟨_, _, rfl⟩, rfl⟩

/-- An entry that requires a package and, by its path, one of the scripts of the package.  The
script requires another one from the main directory of the package. -/
def packageProject : Explorer where
  files := {
    entries := [
      (["main.lua"], .file (twoRequires "'json'" "'lib.json.sub.enc'")),
      (["lib"], .directory),
      (["lib", "json"], .directory),
      (["lib", "json", "package.json"],
        .file (utf8 "\x7b\"luapack\":\x7b\"main\":\"init.lua\"\x7d\x7d".toList)),
      (["lib", "json", "init.lua"], .file (utf8 "require 'sub.enc'".toList)),
      (["lib", "json", "util.lua"], .file []),
      (["lib", "json", "sub"], .directory),
      (["lib", "json", "sub", "enc.lua"], .file (utf8 "require 'util'".toList))] }
  resolver := { extension := "lua", entryDir := ⟨"/"⟩, dependencyRoots := [⟨"/lib"⟩] }
  entry := { path := ⟨"/main.lua"⟩, directory := ⟨"/"⟩ }

theorem exists_graph_iff {x : Explorer} :
    (∃ graph, x.graph = .ok graph) ↔ x.graph.toOption.isSome = true := by
  cases hgraph : x.graph with
  | error e => simp [Except.toOption]
  | ok graph => simp [Except.toOption]

/-- The package is discovered if it is required first.  If the script is required by its path
first, it is explored outside the package, and its own call leads nowhere. -/
theorem packageProject_order :
    packageProject.IsProject ∧
      (∃ content chunk content' chunk',
        packageProject.files.entry? ["main.lua"] = some (.file content) ∧
        parseBytes content = .ok chunk ∧ parseBytes content' = .ok chunk' ∧
        Exchanged chunk.body chunk'.body ∧ (∃ graph, packageProject.graph = .ok graph) ∧
        ¬∃ graph, (packageProject.withFile ["main.lua"] content').graph = .ok graph) := by
  have hfirst : ∃ chunk, parseBytes (twoRequires "'json'" "'lib.json.sub.enc'") =
      .ok chunk ∧ chunk.body = [requireStat ⟨"'json'", 1⟩ 1,
        requireStat ⟨"'lib.json.sub.enc'", 2⟩ 2] :=
    body_of_twoRequires (by decide +kernel)
  have hsecond : ∃ chunk, parseBytes (twoRequires "'lib.json.sub.enc'" "'json'") =
      .ok chunk ∧ chunk.body = [requireStat ⟨"'lib.json.sub.enc'", 1⟩ 1,
        requireStat ⟨"'json'", 2⟩ 2] :=
    body_of_twoRequires (by decide +kernel)
  rcases hfirst with ⟨chunk, hchunk, hbody⟩
  rcases hsecond with ⟨chunk', hchunk', hbody'⟩
  refine ⟨⟨FileSystem.hasProperPlace_of_root rfl, ⟨"/main.lua"⟩, ?_⟩,
    _, chunk, _, chunk', rfl, hchunk, hchunk', ?_, ?_, ?_⟩
  · rfl
  · exact exchanged_twoRequires hbody hbody'
  · rw [exists_graph_iff]
    decide +kernel
  · rw [exists_graph_iff]
    decide +kernel

/-- An entry that requires a package and, by its path, the main script of the package.  That
script requires another one that lies beside it. -/
def sharedProject : Explorer where
  files := {
    entries := [
      (["main.lua"], .file (twoRequires "'json'" "'lib.json.init'")),
      (["lib"], .directory),
      (["lib", "json"], .directory),
      (["lib", "json", "package.json"],
        .file (utf8 "\x7b\"luapack\":\x7b\"main\":\"init.lua\"\x7d\x7d".toList)),
      (["lib", "json", "init.lua"], .file (utf8 "require 'util'".toList)),
      (["lib", "json", "util.lua"], .file [])] }
  resolver := { extension := "lua", entryDir := ⟨"/"⟩, dependencyRoots := [⟨"/lib"⟩] }
  entry := { path := ⟨"/main.lua"⟩, directory := ⟨"/"⟩ }

def sharedPackage : Package where
  name := "json"
  manifest := { name := none, version := none, directory := ⟨"/lib/json"⟩, build := none }
  main := ⟨"/lib/json/init.lua"⟩
  mainDir := ⟨"/lib/json"⟩

def sharedPlaces : List Location :=
  sharedProject.entry :: [none, some sharedPackage].flatMap fun package => [
    { path := ⟨"/lib/json/init.lua"⟩, directory := ⟨"/lib/json"⟩, package },
    { path := ⟨"/lib/json/util.lua"⟩, directory := ⟨"/lib/json"⟩, package }]

theorem sharedProject_charts : sharedProject.Charts sharedPlaces := by
  decide +kernel

theorem sharedProject_exchange :
    ∃ content chunk content' chunk',
      sharedProject.files.entry? ["main.lua"] = some (.file content) ∧
      parseBytes content = .ok chunk ∧ parseBytes content' = .ok chunk' ∧
      sharedProject.IsProject ∧ sharedProject.Unambiguous ∧ Exchanged chunk.body chunk'.body ∧
      (∃ graph, sharedProject.graph = .ok graph) ∧
      ∃ graph', (sharedProject.withFile ["main.lua"] content').graph = .ok graph' := by
  have hfirst : ∃ chunk, parseBytes (twoRequires "'json'" "'lib.json.init'") = .ok chunk ∧
      chunk.body = [requireStat ⟨"'json'", 1⟩ 1, requireStat ⟨"'lib.json.init'", 2⟩ 2] :=
    body_of_twoRequires (by decide +kernel)
  have hsecond : ∃ chunk, parseBytes (twoRequires "'lib.json.init'" "'json'") = .ok chunk ∧
      chunk.body = [requireStat ⟨"'lib.json.init'", 1⟩ 1, requireStat ⟨"'json'", 2⟩ 2] :=
    body_of_twoRequires (by decide +kernel)
  have hgraph : ∃ graph, sharedProject.graph = .ok graph := by
    rw [exists_graph_iff]
    decide +kernel
  have hproject : sharedProject.IsProject :=
    ⟨FileSystem.hasProperPlace_of_root rfl, ⟨"/main.lua"⟩, rfl⟩
  have hclear : sharedProject.Unambiguous :=
    unambiguous_of_charts rfl (by decide +kernel) sharedProject_charts hproject
  rcases hfirst with ⟨chunk, hchunk, hbody⟩
  rcases hsecond with ⟨chunk', hchunk', hbody'⟩
  have hexchanged := exchanged_twoRequires hbody hbody'
  have hfile : sharedProject.files.entry? ["main.lua"] =
      some (.file (twoRequires "'json'" "'lib.json.init'")) := rfl
  have hresult := graph_exchange hfile hchunk hchunk' hproject hclear hexchanged
  exact ⟨_, chunk, _, chunk', hfile, hchunk, hchunk', hproject, hclear, hexchanged, hgraph,
    hresult.1.mp hgraph⟩

end LuaBundle
