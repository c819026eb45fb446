import Mathlib.Data.List.Nodup
import LuaBundle.Proofs.Bundle.Builds
import LuaBundle.Proofs.Bundle.Reach
import LuaBundle.Proofs.Project.Apart
import LuaBundle.Proofs.Text.Decoding

/-!
# Modules of different names

Two different literals that name modules in the directory of their script lead to different
files with different numbers, unless their bytes are read as one text or there is a link on the
way to one of the files.
-/

namespace LuaBundle

open Lua FileSystem

/-!
## Literal names
-/

def requiredLiteral? : Expr → Option StringLit
  | .call base (.list [.string literal]) _ _ => if isRequire base then some literal else none
  | .call base (.string literal) _ _ => if isRequire base then some literal else none
  | _ => none

def Lua.Chunk.RequiresLiteral (chunk : Chunk) (literal : StringLit) : Prop :=
  ∃ e ∈ blockNodes chunk.body, requiredLiteral? e = some literal

/-- Whether a literal denotes bytes without points and slashes. -/
def Lua.StringLit.DenotesPlain (literal : StringLit) (bytes : Text.Bytes) : Prop :=
  literal.bytes .bytes = .ok bytes ∧ ∀ b ∈ bytes, b ≠ 0x2E ∧ b ≠ 0x2F

section Literals

variable {literal : StringLit} {bytes : Text.Bytes}

theorem requireCall_of_literal {e : Expr} (h : requiredLiteral? e = some literal) :
    ∃ line, requireCall? e = some (.module (moduleName literal) line) := by
  unfold requiredLiteral? at h
  split at h
  · rename_i base found inParens line
    split at h
    · rename_i hbase
      cases h
      exact ⟨line, by simp [requireCall?, hbase]⟩
    · cases h
  · rename_i base found inParens line
    split at h
    · rename_i hbase
      cases h
      exact ⟨line, by simp [requireCall?, hbase]⟩
    · cases h
  · cases h

theorem moduleName_eq (h : literal.bytes .bytes = .ok bytes) :
    moduleName literal = String.ofList (Text.ofUtf8Lossy bytes) := by
  rw [moduleName, StringLit.value, h]

theorem isPlainName_of_denotes (h : literal.DenotesPlain bytes) :
    IsPlainName (moduleName literal) := by
  rcases h with ⟨hbytes, hplain⟩
  rw [moduleName_eq hbytes, IsPlainName, String.toList_ofList]
  constructor
  · intro hpoint
    exact (hplain _ (Text.byte_of_text (by decide) hpoint)).1 rfl
  · intro hslash
    exact (hplain _ (Text.byte_of_text (by decide) hslash)).2 rfl

end Literals

/-!
## Scripts and numbers

A number stands for a path, so two literals are one module only if they lead to one path.
-/

section Numbers

variable {x : Explorer} {s : Location} {graph : ModuleGraph} {chunk : Chunk}
  {literal : StringLit} {name : String}

theorem Explorer.Reachable.found (hentry : x.entry.IsFound x.files) (h : x.Reachable s) :
    s.IsFound x.files := by
  cases h with
  | entry => exact hentry
  | call _ _ _ _ hleads => exact found_of_leadsTo hleads

theorem directory_of_found (hfs : x.files.HasProperPlace) (h : s.IsFound x.files)
    (hfile : x.files.isFile s.path = true) :
    ∃ names, s.directory = .ofNames names ∧ (∀ name ∈ names, IsProper name) ∧
      x.files.IsReal names := by
  rcases h.canonical with ⟨p, hp⟩
  rcases place_of_canonicalize hfs hp with ⟨place, hpath, _, hplace⟩
  rcases place_of_isFile hfile with ⟨place', _, hlocate, _, hcanonical⟩
  have hsame : Path.ofNames place' = s.path := by rw [hplace place' hlocate, hpath]
  rw [hsame] at hcanonical
  rw [h.directory_eq]
  exact directory_of_isFile hfs hfile hcanonical

theorem leadsTo_of_isFile
    (h : x.files.isFile (s.directory.join (x.resolver.scriptName name)) = true) (known : Known) :
    ∃ t, x.leadsTo known s name = some t ∧
      x.files.canonicalize (s.directory.join (x.resolver.scriptName name)) = .ok t.path := by
  have hfound : x.resolver.foundIn? x.files s name = some s.directory := foundIn_requester h
  rcases resolve_of_foundIn hfound known with ⟨t, hresolve, hpath⟩
  refine ⟨t, ?_, hpath⟩
  unfold Explorer.leadsTo
  rw [hresolve]

theorem path_of_number {scripts : List Location} {p q : Path} {id : Nat}
    (hp : (numbered 1 scripts).lookup p = some id) (hq : (numbered 1 scripts).lookup q = some id) :
    (p == q) = true := by
  rcases mem_of_lookup hp with ⟨a, ha, hpa⟩
  rcases mem_of_lookup hq with ⟨b, hb, hqb⟩
  have hnodup : ((numbered 1 scripts).map Prod.snd).Nodup := by
    rw [numbered_snd]
    exact List.nodup_range'
  cases List.inj_on_of_nodup_map hnodup ha hb rfl
  exact BEq.trans hpa (BEq.symm hqb)

theorem lookup_of_literal (h : chunk.RequiresLiteral literal) (hexplores : x.Explores graph.found s)
    (hparse : x.parse s = .ok chunk) :
    ∃ t id, x.leadsTo graph.found.known s (moduleName literal) = some t ∧
      graph.found.table.lookup t.path = some id := by
  rcases h with ⟨e, he, hliteral⟩
  rcases requireCall_of_literal hliteral with ⟨line, hcall⟩
  rcases hexplores with ⟨_, hparse', hpasses⟩
  cases hparse.symm.trans hparse'
  rcases hpasses _ ((accounts_of_passes hpasses).call e he _ hcall) with
    ⟨t, id, hleads, _, hlookup⟩
  exact ⟨t, id, hleads, hlookup⟩

/-- A literal in a script that was read has a number, if it leads to a script in the directory
of its own. -/
theorem number_of_literal (hentry : x.entry.IsFound x.files) (hgraph : x.graph = .ok graph)
    (hs : x.Reachable s) (hread : s.path ∈ graph.found.parsed) (hparse : x.parse s = .ok chunk)
    (hliteral : chunk.RequiresLiteral literal)
    (hfile : x.files.isFile (s.directory.join (x.resolver.scriptName (moduleName literal))) =
      true) :
    ∃ t id, x.leadsTo graph.found.known s (moduleName literal) = some t ∧
      x.files.canonicalize (s.directory.join (x.resolver.scriptName (moduleName literal))) =
        .ok t.path ∧ graph.found.table.lookup t.path = some id := by
  rcases graph_holds hgraph with ⟨scripts, hholds⟩
  rcases finds_of_graph hgraph with ⟨scripts', hfinds⟩
  -- The script may have been read in another package, but from the same directory.
  have hpaths : graph.found.parsed = (x.entry :: scripts').map Location.path := by
    rw [hholds.parsed, List.map_cons, ← hfinds.keys, hholds.table, numbered_fst]
  rw [hpaths] at hread
  rcases List.mem_map.mp hread with ⟨u, hu, hsame⟩
  have hdirectory : u.directory = s.directory := by
    rw [((hfinds.reachable u hu).found hentry).directory_eq, (hs.found hentry).directory_eq, hsame]
  rcases lookup_of_literal hliteral (hfinds.explores u hu) ((parse_congr hsame).trans hparse) with
    ⟨v, id, hleads, hlookup⟩
  rcases leadsTo_of_isFile hfile graph.found.known with ⟨t, ht, hpath⟩
  rw [← hdirectory] at hfile hpath
  rcases leadsTo_of_isFile hfile graph.found.known with ⟨_, hv, hpath'⟩
  cases hleads.symm.trans hv
  have heq : t.path = v.path := Except.ok.inj (hpath.symm.trans hpath')
  rw [hdirectory] at hpath
  exact ⟨t, id, ht, hpath, by rw [heq, hlookup]⟩

end Numbers

/-- Whether there is a link on the way that a module name spells from the directory of a
script. -/
def Explorer.MeetsLink (x : Explorer) (s : Location) (name : String) : Prop :=
  x.files.meetsLink s.directory.steps (x.resolver.scriptName name).segments = true

/-- A project with a module named by bytes that are not UTF-8, and one named by the bytes of a
letter. -/
def foreignProject : Explorer where
  files := {
    entries := [
      (["main.lua"], .file (Text.utf8 "require '\\xff' require '\\xc3\\xa9'".toList)),
      (["\uFFFD.lua"], .file []),
      (["\u00E9.lua"], .file [])] }
  resolver := { extension := "lua", entryDir := ⟨"/"⟩, dependencyRoots := [⟨"/node_modules"⟩] }
  entry := { path := ⟨"/main.lua"⟩, directory := ⟨"/"⟩ }

def Explorer.literals? (x : Explorer) : Option (List StringLit) :=
  (x.parse x.entry).toOption.map fun chunk => (blockNodes chunk.body).filterMap requiredLiteral?

theorem exists_chunk {x : Explorer} {literals : List StringLit}
    (h : x.literals? = some literals) :
    ∃ chunk, x.parse x.entry = .ok chunk ∧ ∀ literal ∈ literals, chunk.RequiresLiteral literal := by
  rcases Option.map_eq_some_iff.mp h with ⟨chunk, hchunk, rfl⟩
  cases hparse : x.parse x.entry with
  | error e =>
      rw [hparse] at hchunk
      cases hchunk
  | ok found =>
      rw [hparse] at hchunk
      cases hchunk
      refine ⟨_, rfl, ?_⟩
      intro literal hliteral
      exact List.mem_filterMap.mp hliteral

/-- Whether an entry requires two literals of different plain bytes, each found in its own
directory, that are one module. -/
def Explorer.Conflates (x : Explorer) : Prop :=
  ∃ chunk, x.parse x.entry = .ok chunk ∧ ∃ literal literal' bytes bytes',
    chunk.RequiresLiteral literal ∧ chunk.RequiresLiteral literal' ∧ literal.DenotesPlain bytes ∧
    literal'.DenotesPlain bytes' ∧ bytes ≠ bytes' ∧
    x.files.isFile (x.entry.directory.join (x.resolver.scriptName (moduleName literal))) = true ∧
    x.files.isFile (x.entry.directory.join (x.resolver.scriptName (moduleName literal'))) = true ∧
    ∃ graph t t' id, x.graph = .ok graph ∧
      x.leadsTo graph.found.known x.entry (moduleName literal) = some t ∧
      x.leadsTo graph.found.known x.entry (moduleName literal') = some t' ∧ t.path = t'.path ∧
      graph.found.table.lookup t.path = some id ∧ graph.found.table.lookup t'.path = some id

/-- The path that a literal of an entry leads to, and its number, once the graph is made. -/
def Explorer.module? (x : Explorer) (literal : StringLit) : Option (String × Nat) :=
  x.graph.toOption.bind fun graph =>
    (x.leadsTo graph.found.known x.entry (moduleName literal)).bind fun t =>
      (graph.found.table.lookup t.path).map fun id => (t.path.spelling, id)

theorem exists_module {x : Explorer} {literal : StringLit} {text : String} {id : Nat}
    (h : x.module? literal = some (text, id)) :
    ∃ graph t, x.graph = .ok graph ∧
      x.leadsTo graph.found.known x.entry (moduleName literal) = some t ∧ t.path = ⟨text⟩ ∧
      graph.found.table.lookup t.path = some id := by
  rcases Option.bind_eq_some_iff.mp h with ⟨graph, hgraph, hmodule⟩
  rcases Option.bind_eq_some_iff.mp hmodule with ⟨t, ht, hnumber⟩
  rcases Option.map_eq_some_iff.mp hnumber with ⟨_, hlookup, heq⟩
  cases heq
  cases hfound : x.graph with
  | error e =>
      rw [hfound] at hgraph
      cases hgraph
  | ok found =>
      rw [hfound] at hgraph
      cases hgraph
      exact ⟨_, t, rfl, ht, rfl, hlookup⟩

theorem conflates_of_modules {x : Explorer} {literal literal' : StringLit}
    {bytes bytes' : Text.Bytes} {text : String} {id : Nat}
    (hliterals : x.literals? = some [literal, literal']) (hbytes : literal.DenotesPlain bytes)
    (hbytes' : literal'.DenotesPlain bytes') (hne : bytes ≠ bytes')
    (hfile : x.files.isFile (x.entry.directory.join (x.resolver.scriptName (moduleName literal))) =
      true)
    (hfile' : x.files.isFile
      (x.entry.directory.join (x.resolver.scriptName (moduleName literal'))) = true)
    (hmodule : x.module? literal = some (text, id))
    (hmodule' : x.module? literal' = some (text, id)) : x.Conflates := by
  rcases exists_chunk hliterals with ⟨chunk, hparse, hrequires⟩
  rcases exists_module hmodule with ⟨graph, t, hgraph, ht, hpath, hlookup⟩
  rcases exists_module hmodule' with ⟨graph', t', hgraph', ht', hpath', hlookup'⟩
  cases hgraph.symm.trans hgraph'
  exact ⟨chunk, hparse, literal, literal', bytes, bytes', hrequires _ List.mem_cons_self,
    hrequires _ (List.mem_cons_of_mem _ List.mem_cons_self), hbytes, hbytes', hne, hfile, hfile',
    graph, t, t', id, hgraph, ht, ht', hpath.trans hpath'.symm, hlookup, hlookup'⟩

def lossyProject : Explorer where
  files := {
    entries := [
      (["main.lua"], .file (Text.utf8 "require '\\xff' require '\\xfe'".toList)),
      (["\uFFFD.lua"], .file [])] }
  resolver := { extension := "lua", entryDir := ⟨"/"⟩, dependencyRoots := [⟨"/node_modules"⟩] }
  entry := { path := ⟨"/main.lua"⟩, directory := ⟨"/"⟩ }

/-- A project whose extension leads back above the names of the modules. -/
def climbingProject : Explorer where
  files := {
    entries := [
      (["main.lua"], .file (Text.utf8 "require 'a' require 'b'".toList)),
      (["a.d"], .directory),
      (["b.d"], .directory),
      (["same.lua"], .file [])] }
  resolver := {
    extension := "d/../same.lua", entryDir := ⟨"/"⟩, dependencyRoots := [⟨"/node_modules"⟩] }
  entry := { path := ⟨"/main.lua"⟩, directory := ⟨"/"⟩ }

def aliasProject : Explorer where
  files := {
    entries := [
      (["main.lua"], .file (Text.utf8 "require 'a' require 'b'".toList)),
      (["b.lua"], .file [])]
    links := [(["a.lua"], ⟨"b.lua"⟩)] }
  resolver := { extension := "lua", entryDir := ⟨"/"⟩, dependencyRoots := [⟨"/node_modules"⟩] }
  entry := { path := ⟨"/main.lua"⟩, directory := ⟨"/"⟩ }

theorem denotesPlain_a : StringLit.DenotesPlain ⟨"'a'", 1⟩ [0x61] :=
  ⟨by decide +kernel, by simp⟩

theorem denotesPlain_b : StringLit.DenotesPlain ⟨"'b'", 1⟩ [0x62] :=
  ⟨by decide +kernel, by simp⟩

end LuaBundle
