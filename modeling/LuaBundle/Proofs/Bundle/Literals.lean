import LuaBundle.Bundle.Bundle
import LuaBundle.Proofs.Bundle.Captures
import LuaBundle.Proofs.Tree.Strings

/-!
# String literals of bundles

The string literals that a bundle is read with denote the bytes that they denote in its
scripts, in the order of the modules and with the entry last.  Only the arguments of the
replaced calls are left out.
-/

namespace LuaBundle
namespace Lua

open Text

/-!
## Rewritten trees
-/

def asksForModule (e : Expr) : Bool :=
  match requireCall? e with
  | some (.module ..) => true
  | _ => false

theorem replacement_strings (e : Expr) (id : Nat) : (replacement e id).strings noCall = [] := by
  unfold replacement
  split <;> rfl

section Rewritten

variable (number : String → Nat)

mutual

theorem Expr.strings_rewrite : (e : Expr) →
    (e.rewrite number).strings noCall = e.strings asksForModule
  | .name _ | .string _ | .number .. | .boolean _ | .nil | .vararg .. => rfl
  | .function _ body => block_strings_rewrite body
  | .table fields => fields_strings_rewrite fields
  | .binary _ left right => congrArg₂ (· ++ ·) left.strings_rewrite right.strings_rewrite
  | .unary _ operand => operand.strings_rewrite
  | .member base _ _ => base.strings_rewrite
  | .index base key => congrArg₂ (· ++ ·) base.strings_rewrite key.strings_rewrite
  | .call base arguments inParens line => by
      rw [Expr.strings]
      rcases rewrite_call number base arguments inParens line with
        ⟨name, callLine, hcall, heq⟩ | ⟨hne, heq⟩
      · have hasks : asksForModule (.call base arguments inParens line) = true := by
          rw [asksForModule, hcall]
        rw [heq, replacement_strings, if_pos hasks]
      · have hasks : asksForModule (.call base arguments inParens line) = false := by
          unfold asksForModule
          split
          · rename_i hcall
            exact absurd hcall (hne _ _)
          · rfl
        rw [heq, call_strings, hasks, base.strings_rewrite, arguments.strings_rewrite]
        rfl

theorem Args.strings_rewrite : (arguments : Args) →
    (arguments.rewrite number).strings noCall = arguments.strings asksForModule
  | .list arguments => exprs_strings_rewrite arguments
  | .table fields => fields_strings_rewrite fields
  | .string _ => rfl

theorem Field.strings_rewrite : (f : Field) →
    (f.rewrite number).strings noCall = f.strings asksForModule
  | .keyed key value => congrArg₂ (· ++ ·) key.strings_rewrite value.strings_rewrite
  | .named _ value => value.strings_rewrite
  | .positional value => value.strings_rewrite

theorem Stat.strings_rewrite : (s : Stat) →
    (s.rewrite number).strings noCall = s.strings asksForModule
  | .label _ | .goto _ | .leave => rfl
  | .ret values => exprs_strings_rewrite values
  | .choice clauses => clauses_strings_rewrite clauses
  | .whileLoop condition body =>
      congrArg₂ (· ++ ·) condition.strings_rewrite (block_strings_rewrite body)
  | .block body => block_strings_rewrite body
  | .repeatLoop body condition =>
      congrArg₂ (· ++ ·) (block_strings_rewrite body) condition.strings_rewrite
  | .locals _ values => exprs_strings_rewrite values
  | .assign targets values =>
      congrArg₂ (· ++ ·) (exprs_strings_rewrite targets) (exprs_strings_rewrite values)
  | .call e => e.strings_rewrite
  | .function _ name _ body =>
      congrArg₂ (· ++ ·) (option_strings_rewrite name) (block_strings_rewrite body)
  | .forRange _ first last step body =>
      congrArg₂ (· ++ ·) (congrArg₂ (· ++ ·)
        (congrArg₂ (· ++ ·) first.strings_rewrite last.strings_rewrite)
        (option_strings_rewrite step)) (block_strings_rewrite body)
  | .forEach _ iterators body =>
      congrArg₂ (· ++ ·) (exprs_strings_rewrite iterators) (block_strings_rewrite body)

theorem Clause.strings_rewrite : (c : Clause) →
    (c.rewrite number).strings noCall = c.strings asksForModule
  | .first condition body | .next condition body =>
      congrArg₂ (· ++ ·) condition.strings_rewrite (block_strings_rewrite body)
  | .otherwise body => block_strings_rewrite body

theorem option_strings_rewrite : (o : Option Expr) →
    optionStrings noCall (rewriteOption number o) = optionStrings asksForModule o
  | none => rfl
  | some e => e.strings_rewrite

theorem exprs_strings_rewrite : (es : List Expr) →
    exprStrings noCall (rewriteExprs number es) = exprStrings asksForModule es
  | [] => rfl
  | e :: rest => congrArg₂ (· ++ ·) e.strings_rewrite (exprs_strings_rewrite rest)

theorem fields_strings_rewrite : (fs : List Field) →
    fieldStrings noCall (rewriteFields number fs) = fieldStrings asksForModule fs
  | [] => rfl
  | f :: rest => congrArg₂ (· ++ ·) f.strings_rewrite (fields_strings_rewrite rest)

/-- A script keeps its string literals, but for those in the calls that are replaced. -/
theorem block_strings_rewrite : (body : List Stat) →
    blockStrings noCall (rewriteBlock number body) = blockStrings asksForModule body
  | [] => rfl
  | s :: rest => congrArg₂ (· ++ ·) s.strings_rewrite (block_strings_rewrite rest)

theorem clauses_strings_rewrite : (clauses : List Clause) →
    clauseStrings noCall (rewriteClauses number clauses) = clauseStrings asksForModule clauses
  | [] => rfl
  | c :: rest => congrArg₂ (· ++ ·) c.strings_rewrite (clauses_strings_rewrite rest)

end

end Rewritten

/-!
## Assembled bodies
-/

theorem packageFields_strings (modules : List (Nat × Chunk)) :
    fieldStrings noCall (packageFields modules) =
      modules.flatMap fun m => blockStrings noCall m.2.body := by
  induction modules with
  | nil => rfl
  | cons m rest ih =>
      rw [packageFields_cons, fieldStrings, ih, List.flatMap_cons]
      rfl

theorem preamble_strings (modules : List (Nat × Chunk)) (main : List Stat) :
    blockStrings noCall (preamble modules ++ main) =
      (modules.flatMap fun m => blockStrings noCall m.2.body) ++ blockStrings noCall main := by
  rw [← packageFields_strings]
  simp [preamble_eq, localStat, blockStrings, Stat.strings, exprStrings, Expr.strings, fieldStrings,
    localRef, loader, loaderBody, resultSlot, whenStat, clauseStrings, Clause.strings, callExpr,
    Args.strings, noCall]

theorem packageFields_names (modules : List (Nat × Chunk)) :
    fieldNames (packageFields modules) =
      modules.flatMap fun m => blockNames m.2.body := by
  induction modules with
  | nil => rfl
  | cons m rest ih =>
      rw [packageFields_cons, fieldNames, ih, List.flatMap_cons]
      rfl

theorem preamble_ascii {modules : List (Nat × Chunk)} {main : List Stat}
    (hmodules : ∀ m ∈ modules, ∀ name ∈ blockNames m.2.body, isAsciiName name = true)
    (hmain : ∀ name ∈ blockNames main, isAsciiName name = true) :
    ∀ name ∈ blockNames (preamble modules ++ main), isAsciiName name = true := by
  have hadded : ∀ name ∈ [loaderName, packagesName, cacheName, "id", "cached", "loaded"],
      isAsciiName name = true := by decide
  simp only [List.forall_mem_cons] at hadded
  have hfields : ∀ name ∈ fieldNames (packageFields modules),
      isAsciiName name = true := by
    rw [packageFields_names]
    intro name hname
    rcases List.mem_flatMap.mp hname with ⟨m, hm, hname⟩
    exact hmodules m hm name hname
  simpa [preamble_eq, localStat, blockNames, Stat.names, LocalVar.names, exprNames, Expr.names,
    localRef, loader, loaderBody, resultSlot, whenStat, clauseNames, Clause.names, callExpr,
    Args.names, fieldNames, hadded, or_imp, forall_and] using ⟨hfields, hmain⟩

end Lua

open Lua

/-!
## Bundles
-/

section Trees

variable {x : Explorer} {final : Discovery} {graph : ModuleGraph} {scripts : List Location}

theorem treesFrom_strings {scripts : List Location} (first : Nat)
    (h : ∀ s ∈ scripts, x.Explores final s) :
    ((x.treesFrom final first scripts).flatMap fun m => blockStrings noCall m.2.body) =
      (scripts.map x.chunkOf).flatMap fun c => blockStrings asksForModule c.body := by
  refine treesFrom_flatMap (f := fun c => blockStrings noCall c.body) first fun s hs => ?_
  rcases chunkOf_of_explores (h s hs) with ⟨_, _, _, htree⟩
  rw [htree]
  exact block_strings_rewrite _ _

theorem ModuleGraph.Holds.strings (h : graph.Holds x scripts) :
    blockStrings noCall graph.chunk.body =
      (scripts.map x.chunkOf ++ [x.chunkOf x.entry]).flatMap fun c =>
        blockStrings asksForModule c.body := by
  rw [h.body, preamble_strings, treesFrom_strings 1 fun s hs => h.explores s (by simp [hs]),
    block_strings_rewrite, List.flatMap_append, List.flatMap_singleton]

theorem ModuleGraph.Holds.ascii (h : graph.Holds x scripts)
    (hnames : ∀ s ∈ x.entry :: scripts, ∀ name ∈ blockNames (x.chunkOf s).body,
      isAsciiName name = true) :
    ∀ name ∈ blockNames graph.chunk.body, isAsciiName name = true := by
  have hrewritten : ∀ s ∈ x.entry :: scripts, ∀ number : String → Nat,
      ∀ name ∈ blockNames (rewriteBlock number (x.chunkOf s).body), isAsciiName name = true := by
    intro s hs number name hname
    rcases block_names_rewrite _ name hname with hown | rfl
    · exact hnames s hs name hown
    · decide
  rw [h.body]
  refine preamble_ascii ?_ (hrewritten x.entry List.mem_cons_self _)
  intro m hm
  rcases List.mem_map.mp hm with ⟨⟨s, id⟩, hs, rfl⟩
  have hscript : s ∈ x.entry :: scripts :=
    List.mem_cons_of_mem _ (List.fst_mem_of_mem_zipIdx hs)
  have htree := (chunkOf_of_explores (h.explores s hscript)).2.2.2
  change ∀ name ∈ blockNames (x.treeOf graph.found s).body, isAsciiName name = true
  rw [htree]
  exact hrewritten s hscript _

end Trees

theorem graph_of_bundle {fs : FileSystem} {config : Config} {target : Target} {bundle : Bundle}
    (h : target.bundle fs config = .ok bundle) (hplain : config.metadata = false) :
    ∃ (x : Explorer) (graph : ModuleGraph), x.files = fs ∧ x.graph = .ok graph ∧
      target.graph fs config = .ok graph ∧
      bundle.parsed = graph.found.parsed ∧
      bundle.code = Text.toBytes (print config.style graph.chunk.body) := by
  unfold Target.bundle at h
  cases hgraph : target.graph fs config with
  | error e =>
      rw [hgraph] at h
      cases h
  | ok graph =>
      rw [hgraph] at h
      cases h
      cases hentry : Location.ofPath fs target.entry none with
      | error e =>
          simp only [Target.graph, hentry] at hgraph
          cases hgraph
      | ok entry =>
          simp only [Target.graph, hentry] at hgraph
          refine ⟨_, graph, ?_, hgraph, rfl, rfl, ?_⟩
          · rfl
          · rw [hplain]
            rfl

theorem exists_values {literals : List StringLit}
    (h : ∀ literal ∈ literals, ∃ bytes, literal.bytes .bytes = .ok bytes) :
    ∃ values : List Text.Bytes, literals.map (StringLit.bytes .bytes) = values.map .ok := by
  induction literals with
  | nil => exact ⟨[], rfl⟩
  | cons literal rest ih =>
      rw [List.forall_mem_cons] at h
      rcases h.1 with ⟨bytes, hbytes⟩
      rcases ih h.2 with ⟨values, hvalues⟩
      exact ⟨bytes :: values, by rw [List.map_cons, hbytes, hvalues, List.map_cons]⟩

/-- The bytes of string literals survive bundling. -/
theorem bundle_strings {fs : FileSystem} {config : Config} {target : Target} {bundle : Bundle}
    (h : target.bundle fs config = .ok bundle) (hplain : config.metadata = false)
    (hnames : config.style = .compact → ∀ p ∈ bundle.parsed, ∀ c, fs.HoldsChunk p c →
      ∀ name ∈ blockNames c.body, isAsciiName name = true) :
    ∃ (graph : ModuleGraph) (main : Chunk) (modules : List Chunk) (again : Chunk)
      (values : List Text.Bytes),
      target.graph fs config = .ok graph ∧
      graph.found.table = bundle.parsed.tail.zipIdx 1 ∧
      List.Forall₂ fs.HoldsChunk bundle.parsed (main :: modules) ∧
      parseBytes bundle.code = .ok again ∧
      (blockStrings noCall again.body).map (StringLit.bytes .bytes) = values.map .ok ∧
      ((modules ++ [main]).flatMap fun c => blockStrings asksForModule c.body).map
        (StringLit.bytes .bytes) = values.map .ok := by
  rcases graph_of_bundle h hplain with ⟨x, graph, rfl, hgraph, htarget, hparsed, hcode⟩
  rcases graph_holds hgraph with ⟨scripts, hholds⟩
  have hfiles : ∀ s ∈ x.entry :: scripts, x.files.HoldsChunk s.path (x.chunkOf s) :=
    fun s hs => holdsChunk_of_parse (chunkOf_of_explores (hholds.explores s hs)).1
  have hpaths : bundle.parsed = (x.entry :: scripts).map Location.path :=
    hparsed.trans hholds.parsed
  have hprints : Prints config.style (blockNames graph.chunk.body) := by
    intro hstyle
    refine hholds.ascii fun s hs => hnames hstyle s.path ?_ _ (hfiles s hs)
    rw [hpaths]
    exact List.mem_map_of_mem hs
  have hbody := (isProduced_of_graph hgraph).readable
  rcases reread_print hbody hprints with ⟨again, hread, _, hstripped⟩
  have hsame := block_bytes_congr keepsStrings_binary keepsStrings_regrouped hstripped .bytes
  rcases exists_values (block_bytes_ok hbody.faultless) with ⟨values, hvalues⟩
  refine ⟨graph, x.chunkOf x.entry, scripts.map x.chunkOf, again, values, htarget, ?_, ?_, ?_,
    hsame.trans hvalues, ?_⟩
  · rw [hpaths, hholds.table, numbered, List.map_cons, List.tail_cons, List.zipIdx_map]
    rfl
  · rw [hpaths, ← List.map_cons, List.forall₂_map_left_iff, List.forall₂_map_right_iff,
      List.forall₂_same]
    exact hfiles
  · rw [hcode]
    exact hread
  · rw [← hholds.strings, hvalues]

def shadowTarget : Target where
  entry := ⟨"/main.lua"⟩
  projectRoot := ⟨"/"⟩
  manifest := none

theorem shadowTarget_succeeds :
    ∃ bundle, shadowTarget.bundle shadowProject.files {} = .ok bundle ∧
      ∀ p ∈ bundle.parsed, ∀ c, shadowProject.files.HoldsChunk p c →
        ∀ name ∈ blockNames c.body, isAsciiName name = true := by
  have hany : ((shadowTarget.bundle shadowProject.files {}).toOption.any fun bundle =>
      bundle.parsed.all fun p => ((shadowProject.files.read p).toOption.bind fun bytes =>
        (parseBytes bytes).toOption).all fun c => (blockNames c.body).all isAsciiName) = true := by
    decide +kernel
  cases hbundle : shadowTarget.bundle shadowProject.files {} with
  | error e =>
      rw [hbundle] at hany
      cases hany
  | ok bundle =>
      rw [hbundle] at hany
      refine ⟨bundle, rfl, fun p hp c hc => ?_⟩
      rcases hc with ⟨bytes, hread, hparse⟩
      have hnames := List.all_eq_true.mp hany p hp
      rw [hread, Except.toOption, Option.bind_some, hparse] at hnames
      exact List.all_eq_true.mp hnames

theorem shadowTarget_strings :
    ∃ bundle, shadowTarget.bundle shadowProject.files {} = .ok bundle ∧
      ∃ (graph : ModuleGraph) (main : Chunk) (modules : List Chunk) (again : Chunk)
        (values : List Text.Bytes),
        shadowTarget.graph shadowProject.files {} = .ok graph ∧
        graph.found.table = bundle.parsed.tail.zipIdx 1 ∧
        List.Forall₂ shadowProject.files.HoldsChunk bundle.parsed (main :: modules) ∧
        parseBytes bundle.code = .ok again ∧
        (blockStrings noCall again.body).map (StringLit.bytes .bytes) = values.map .ok ∧
        ((modules ++ [main]).flatMap fun c => blockStrings asksForModule c.body).map
          (StringLit.bytes .bytes) = values.map .ok := by
  rcases shadowTarget_succeeds with ⟨bundle, hbundle, hnames⟩
  exact ⟨bundle, hbundle, bundle_strings hbundle rfl fun _ => hnames⟩

end LuaBundle
