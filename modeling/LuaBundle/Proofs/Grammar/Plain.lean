import LuaBundle.Lua.Chunk
import LuaBundle.Proofs.Grammar.Yields
import LuaBundle.Proofs.Tree.Marks

/-!
# What the grammar gives

Every rule of the grammar, when it finds something among the tokens of a source, finds a
well-formed tree without marks.
-/

namespace LuaBundle
namespace Lua

open Text
open LuaBundle.Lua.Parser

/-!
## Plain trees
-/

section Plain

variable (encoding : Encoding)

/-- A well-formed expression without marks. -/
def Expr.Plain (e : Expr) : Prop :=
  e.WellFormed encoding false ∧ e.stripped .binary = e.unlined

def Args.Plain (arguments : Args) : Prop :=
  arguments.WellFormed encoding ∧ arguments.stripped .binary = arguments.unlined

def Field.Plain (f : Field) : Prop :=
  f.WellFormed encoding ∧ f.stripped .binary = f.unlined

def Stat.Plain (s : Stat) : Prop :=
  s.WellFormed encoding ∧ s.stripped .binary = s.unlined

def Clause.Plain (c : Clause) : Prop :=
  c.WellFormed encoding ∧ c.stripped .binary = c.unlined

def PlainBlock (body : List Stat) : Prop :=
  blockWellFormed encoding body ∧ Unmarked body

def Name.Plain (n : Name) : Prop :=
  Spelled encoding .name n.text ∧ n.isLocal = false

variable {encoding}

theorem Name.Plain.stripped_eq {n : Name} (h : n.Plain encoding) : n.stripped = n := by
  rcases n with ⟨text, isLocal⟩
  rcases h with ⟨_, hlocal⟩
  simp only at hlocal
  rw [hlocal]
  rfl

theorem plain_exprs {es : List Expr} (h : ∀ e ∈ es, e.Plain encoding) :
    exprsWellFormed encoding es ∧ strippedExprs .binary es = unlinedExprs es := by
  induction es with
  | nil => exact ⟨trivial, rfl⟩
  | cons e rest ih =>
      have he := h e (by simp)
      have hrest := ih fun e' he' => h e' (by simp [he'])
      refine ⟨⟨he.1, hrest.1⟩, ?_⟩
      rw [strippedExprs, unlinedExprs, he.2, hrest.2]

theorem plain_fields {fs : List Field} (h : ∀ f ∈ fs, f.Plain encoding) :
    fieldsWellFormed encoding fs ∧ strippedFields .binary fs = unlinedFields fs := by
  induction fs with
  | nil => exact ⟨trivial, rfl⟩
  | cons f rest ih =>
      have hf := h f (by simp)
      have hrest := ih fun f' hf' => h f' (by simp [hf'])
      refine ⟨⟨hf.1, hrest.1⟩, ?_⟩
      rw [strippedFields, unlinedFields, hf.2, hrest.2]

theorem plain_clauses {clauses : List Clause} (h : ∀ c ∈ clauses, c.Plain encoding) :
    clausesWellFormed encoding clauses ∧
      strippedClauses .binary clauses = unlinedClauses clauses := by
  induction clauses with
  | nil => exact ⟨trivial, rfl⟩
  | cons c rest ih =>
      have hc := h c (by simp)
      have hrest := ih fun c' hc' => h c' (by simp [hc'])
      refine ⟨⟨hc.1, hrest.1⟩, ?_⟩
      rw [strippedClauses, unlinedClauses, hc.2, hrest.2]

/-- Statements that may stand anywhere, and maybe one that ends the block. -/
theorem plain_block {body : List Stat} {last : Option Stat}
    (hbody : ∀ s ∈ body, s.Plain encoding ∧ s.isLast = false)
    (hlast : ∀ s ∈ last, s.Plain encoding) : PlainBlock encoding (body ++ last.toList) := by
  induction body with
  | nil =>
      cases last with
      | none => exact ⟨trivial, rfl⟩
      | some s =>
          have hs := hlast s rfl
          refine ⟨⟨hs.1, fun _ => rfl, trivial⟩, ?_⟩
          exact congrArg (· :: []) hs.2
  | cons s rest ih =>
      have hs := hbody s (by simp)
      have hrest := ih fun s' hs' => hbody s' (by simp [hs'])
      refine ⟨⟨hs.1.1, fun h => absurd h (by simp [hs.2]), hrest.1⟩, ?_⟩
      exact congrArg₂ List.cons hs.1.2 hrest.2

theorem wellFormed_callee {e : Expr} (h : e.WellFormed encoding false) :
    e.WellFormed encoding true := by
  cases e with
  | member base indexer n => exact ⟨fun _ => rfl, h.2⟩
  | _ => exact h

theorem plain_parenthesized {e : Expr} (h : e.Plain encoding) :
    e.parenthesized.Plain encoding ∧ e.parenthesized.isRest = false := by
  cases e with
  | call base arguments inParens line =>
      refine ⟨⟨h.1, ?_⟩, rfl⟩
      have heq := h.2
      simp only [Expr.stripped, Expr.unlined, Expr.call.injEq, and_true] at heq
      simp only [Expr.parenthesized, Expr.stripped, Expr.unlined, heq]
  | vararg inParens line => exact ⟨⟨trivial, rfl⟩, rfl⟩
  | _ => exact ⟨h, rfl⟩

end Plain

/-!
## Rules of expressions
-/

/-- An entry that finds only plain expressions and blocks. -/
structure Entry.Yields (encoding : Encoding) (e : Entry) : Prop where
  expr : ∀ precedence, Lua.Yields encoding (e.expr precedence) (Expr.Plain encoding)
  block : Lua.Yields encoding e.block (PlainBlock encoding)

/-- What is known of an expression by what it ends in. -/
structure Suffixed.Plain (encoding : Encoding) (s : Suffixed) : Prop where
  plain : s.expr.Plain encoding
  isRest : s.expr.isRest = false
  call : s.ending = .call → s.expr.isCall = true ∧ s.expr.inParens = false
  target : s.ending = .name ∨ s.ending = .index → s.expr.isTarget = true

section Rules

variable {encoding : Encoding} {e : Entry}

theorem yields_name : Yields encoding name (Name.Plain encoding) := by
  refine (yields_kind .name (by simp)).bind fun t ht => ?_
  exact yields_pure ⟨ht, rfl⟩

theorem yields_stringLit :
    Yields encoding stringLit fun literal => Spelled encoding .string literal.raw := by
  refine (yields_kind .string (by simp)).bind fun t ht => ?_
  exact yields_pure ht

theorem yields_rest : Yields encoding rest fun e => ∃ line, e = .vararg false line := by
  refine (yields_sign "...").bind fun t _ => ?_
  exact yields_pure ⟨t.line, rfl⟩

theorem parameters_names {names : List Name} {last : List Expr}
    (hnames : ∀ n ∈ names, n.Plain encoding)
    (hlast : last = [] ∨ ∃ line, last = [.vararg false line]) :
    Parameters encoding (names.map Expr.name ++ last) ∧
      strippedExprs .binary (names.map Expr.name ++ last) =
        unlinedExprs (names.map Expr.name ++ last) := by
  induction names with
  | nil =>
      rcases hlast with rfl | ⟨line, rfl⟩
      · exact ⟨trivial, rfl⟩
      · exact ⟨rfl, rfl⟩
  | cons n more ih =>
      have hn := hnames n (by simp)
      have hmore := ih fun n' hn' => hnames n' (by simp [hn'])
      refine ⟨⟨hn.1, hmore.1⟩, ?_⟩
      rw [List.map_cons, List.cons_append, strippedExprs, unlinedExprs, hmore.2, Expr.stripped,
        hn.stripped_eq, Expr.unlined]

theorem yields_parameters :
    Yields encoding parameters fun ps =>
      Parameters encoding ps ∧ strippedExprs .binary ps = unlinedExprs ps := by
  have hlast : ∀ o : Option Expr, (∀ e ∈ o, ∃ line, e = .vararg false line) →
      o.toList = [] ∨ ∃ line, o.toList = [.vararg false line] := by
    intro o ho
    cases o with
    | none => exact Or.inl rfl
    | some e =>
        rcases ho e rfl with ⟨line, rfl⟩
        exact Or.inr ⟨line, rfl⟩
  apply Yields.orElse
  · refine yields_name.separated.bind fun names hnames => ?_
    refine ((yields_sign ",").bind fun _ _ => yields_rest).optional.bind fun last hrest => ?_
    exact yields_pure (parameters_names hnames.2 (hlast last hrest))
  · refine yields_rest.optional.bind fun last hrest => ?_
    have hnone : ∀ n ∈ ([] : List Name), n.Plain encoding := by simp
    exact yields_pure (parameters_names hnone (hlast last hrest))

variable (he : e.Yields encoding)
include he

theorem yields_expressions :
    Yields encoding (expressions e) fun es => ∀ e ∈ es, e.Plain encoding := by
  refine (he.expr 1).optional.bind fun o ho => ?_
  cases o with
  | none => exact yields_pure (by simp)
  | some first =>
      refine ((yields_sign ",").bind fun _ _ => (he.expr 1).need).many.bind fun more hmore => ?_
      exact yields_pure (by simpa using ⟨ho first rfl, hmore⟩)

theorem yields_field : Yields encoding (field e) (Field.Plain encoding) := by
  refine Yields.orElse ?keyed (Yields.orElse ?named ?positional)
  case keyed =>
    refine (yields_sign "[").bind fun _ _ => ?_
    refine (he.expr 1).need.bind fun key hkey => ?_
    refine (yields_sign "]").need.bind fun _ _ => ?_
    refine (yields_sign "=").need.bind fun _ _ => ?_
    refine (he.expr 1).need.bind fun value hvalue => yields_pure ?_
    exact ⟨⟨hkey.1, hvalue.1⟩, congrArg₂ Field.keyed hkey.2 hvalue.2⟩
  case named =>
    refine yields_name.bind fun key hkey => ?_
    refine (yields_sign "=").bind fun _ _ => ?_
    refine (he.expr 1).need.bind fun value hvalue => yields_pure ?_
    exact ⟨⟨hkey.1, hvalue.1⟩, congrArg₂ Field.named hkey.stripped_eq hvalue.2⟩
  case positional =>
    refine (he.expr 1).bind fun value hvalue => yields_pure ?_
    exact ⟨hvalue.1, congrArg Field.positional hvalue.2⟩

theorem yields_fieldsIn (fuel : Nat) :
    Yields encoding (fieldsIn e fuel) fun fs => ∀ f ∈ fs, f.Plain encoding := by
  induction fuel with
  | zero => exact yields_pure (by simp)
  | succ fuel ih =>
      refine (yields_field he).optional.bind fun o ho => ?_
      cases o with
      | none => exact yields_pure (by simp)
      | some first =>
          refine ((yields_sign ",").orElse (yields_sign ";")).optional.bind fun separator _ => ?_
          cases separator with
          | none => exact yields_pure (by simpa using ho first rfl)
          | some _ =>
              refine ih.bind fun more hmore => ?_
              exact yields_pure (by simpa using ⟨ho first rfl, hmore⟩)

theorem yields_tableFields :
    Yields encoding (tableFields e) fun found => ∀ f ∈ found.1, f.Plain encoding := by
  refine (yields_sign _).bind fun opening _ => ?_
  refine (yields_measured (yields_fieldsIn he)).bind fun fields hfields => ?_
  refine (yields_sign _).need.bind fun _ _ => ?_
  exact yields_pure hfields

theorem yields_functionBody :
    Yields encoding (functionBody e) fun found =>
      (Parameters encoding found.1 ∧ strippedExprs .binary found.1 = unlinedExprs found.1) ∧
        PlainBlock encoding found.2 := by
  refine (yields_sign "(").need.bind fun _ _ => ?_
  refine yields_parameters.bind fun ps hps => ?_
  refine (yields_sign ")").need.bind fun _ _ => ?_
  refine he.block.bind fun body hbody => ?_
  refine (yields_sign "end").need.bind fun _ _ => ?_
  exact yields_pure ⟨hps, hbody⟩

theorem yields_arguments :
    Yields encoding (arguments e) fun found => found.1.Plain encoding := by
  refine Yields.orElse ?list (Yields.orElse ?table ?string)
  case list =>
    refine (yields_sign "(").bind fun opening _ => ?_
    refine (yields_expressions he).bind fun list hlist => ?_
    refine (yields_sign ")").need.bind fun _ _ => yields_pure ?_
    have hes := plain_exprs hlist
    exact ⟨hes.1, congrArg Args.list hes.2⟩
  case table =>
    refine (yields_tableFields he).bind fun found hfound => yields_pure ?_
    have hfs := plain_fields hfound
    exact ⟨hfs.1, congrArg Args.table hfs.2⟩
  case string =>
    refine yields_stringLit.bind fun literal hliteral => yields_pure ?_
    exact ⟨hliteral, rfl⟩

omit he in
theorem plain_call {base : Expr} {arguments : Args} {line : Nat}
    (hbase : base.WellFormed encoding true) (hrest : base.isRest = false)
    (heq : base.stripped .binary = base.unlined) (harguments : arguments.Plain encoding) :
    (Suffixed.mk (.call base arguments false line) .call).Plain encoding where
  plain := ⟨⟨hrest, hbase, harguments.1⟩, by
    simp only [Expr.stripped, Expr.unlined, heq, harguments.2]⟩
  isRest := rfl
  call _ := ⟨rfl, rfl⟩
  target h := by simp at h

theorem yields_suffix (base : Suffixed) (hbase : base.Plain encoding) :
    Yields encoding (suffix e base) (Suffixed.Plain encoding) := by
  refine Yields.orElse ?call (Yields.orElse ?method (Yields.orElse ?index ?member))
  case call =>
    refine (yields_arguments he).bind fun found hfound => yields_pure ?_
    exact plain_call (wellFormed_callee hbase.plain.1) hbase.isRest hbase.plain.2 hfound
  case method =>
    refine (yields_sign ":").bind fun _ _ => ?_
    refine yields_name.need.bind fun method hmethod => ?_
    refine (yields_arguments he).need.bind fun found hfound => yields_pure ?_
    refine plain_call ⟨fun _ => rfl, hbase.isRest, hbase.plain.1, hmethod.1⟩ rfl ?_ hfound
    simp only [Expr.stripped, Expr.unlined, hbase.plain.2, hmethod.stripped_eq]
  case index =>
    refine (yields_sign "[").bind fun _ _ => ?_
    refine (he.expr 1).need.bind fun key hkey => ?_
    refine (yields_sign "]").need.bind fun _ _ => yields_pure ?_
    refine ⟨⟨⟨hbase.isRest, hbase.plain.1, hkey.1⟩, ?_⟩, rfl, by simp, fun _ => rfl⟩
    exact congrArg₂ Expr.index hbase.plain.2 hkey.2
  case member =>
    refine (yields_sign ".").bind fun _ _ => ?_
    refine yields_name.need.bind fun member hmember => yields_pure ?_
    refine ⟨⟨⟨by simp, hbase.isRest, hbase.plain.1, hmember.1⟩, ?_⟩, rfl, by simp, fun _ => rfl⟩
    simp only [Expr.stripped, Expr.unlined, hbase.plain.2, hmember.stripped_eq]

theorem yields_paren :
    Yields encoding (paren e) fun inner => inner.Plain encoding ∧ inner.isRest = false := by
  refine (yields_sign "(").bind fun _ _ => ?_
  refine (he.expr 1).need.bind fun inner hinner => ?_
  refine (yields_sign ")").need.bind fun _ _ => ?_
  exact yields_pure (plain_parenthesized hinner)

theorem yields_suffixed : Yields encoding (suffixed e) (Suffixed.Plain encoding) := by
  refine Yields.bind ?start fun start hstart => yields_grow (yields_suffix he) hstart
  apply Yields.orElse
  · refine (yields_paren he).bind fun inner hinner => yields_pure ?_
    exact ⟨hinner.1, hinner.2, by simp, by simp⟩
  · refine yields_name.bind fun n hn => yields_pure ?_
    exact ⟨⟨hn.1, congrArg Expr.name hn.stripped_eq⟩, rfl, by simp, fun _ => rfl⟩

omit he in
theorem yields_unaryOp : Yields encoding unaryOp fun _ => True := by
  constructor
  intro ts op more hts hrun
  cases ts with
  | nil => cases hrun
  | cons t others =>
      simp only [unaryOp] at hrun
      split at hrun
      · cases hrun
        exact ⟨trivial, fun u hu => hts u (by simp [hu])⟩
      · cases hrun

omit he in
theorem yields_binaryOp : Yields encoding binaryOp fun _ => True := by
  constructor
  intro ts op more hts hrun
  refine ⟨trivial, ?_⟩
  cases ts with
  | nil => cases hrun
  | cons t others =>
      have hsub : ∀ u ∈ more, u ∈ others := by
        intro u hu
        cases others with
        | nil =>
            simp only [binaryOp] at hrun
            split at hrun <;> cases hrun
            exact hu
        | cons v others =>
            simp only [binaryOp] at hrun
            split at hrun
            · cases hrun
              exact List.mem_cons_of_mem _ hu
            · split at hrun <;> cases hrun
              exact hu
      exact fun u hu => hts u (by simp [hsub u hu])

theorem yields_value : Yields encoding (value e) (Expr.Plain encoding) := by
  refine Yields.orElse ?nil (Yields.orElse ?no (Yields.orElse ?yes (Yields.orElse ?number
    (Yields.orElse ?string (Yields.orElse ?rest (Yields.orElse ?function (Yields.orElse ?table
      ?suffixed)))))))
  case nil => exact (yields_sign "nil").bind fun _ _ => yields_pure ⟨trivial, rfl⟩
  case no => exact (yields_sign "false").bind fun _ _ => yields_pure ⟨trivial, rfl⟩
  case yes => exact (yields_sign "true").bind fun _ _ => yields_pure ⟨trivial, rfl⟩
  case number =>
    exact (yields_kind .number (by simp)).bind fun t ht => yields_pure ⟨ht, rfl⟩
  case string => exact yields_stringLit.bind fun literal h => yields_pure ⟨h, rfl⟩
  case rest =>
    refine yields_rest.mono ?_
    rintro e ⟨line, rfl⟩
    exact ⟨trivial, rfl⟩
  case function =>
    refine (yields_sign "function").bind fun _ _ => ?_
    refine (yields_functionBody he).bind fun found hfound => yields_pure ?_
    exact ⟨⟨hfound.1.1, hfound.2.1⟩, congrArg₂ Expr.function hfound.1.2 hfound.2.2⟩
  case table =>
    refine (yields_tableFields he).bind fun found hfound => yields_pure ?_
    have hfs := plain_fields hfound
    exact ⟨hfs.1, congrArg Expr.table hfs.2⟩
  case suffixed => exact (yields_suffixed he).bind fun s hs => yields_pure hs.plain

theorem yields_operand : Yields encoding (operand e) (Expr.Plain encoding) := by
  refine Yields.orElse ?unary (yields_value he)
  refine yields_unaryOp.bind fun op _ => ?_
  refine (he.expr _).need.bind fun inner hinner => yields_pure ?_
  exact ⟨hinner.1, congrArg (Expr.unary op) hinner.2⟩

theorem yields_expression (precedence : Nat) :
    Yields encoding (expression e precedence) (Expr.Plain encoding) := by
  refine (yields_operand he).bind fun first hfirst => yields_grow ?_ hfirst
  intro left hleft
  refine yields_binaryOp.bind fun op _ => ?_
  split
  · refine (he.expr _).need.bind fun right hright => yields_pure ?_
    exact ⟨⟨hleft.1, hright.1⟩, congrArg₂ (Expr.binary op) hleft.2 hright.2⟩
  · exact yields_nothing

end Rules

/-!
## Rules of statements
-/

def Expr.PlainDotted (encoding : Encoding) (e : Expr) : Prop :=
  e.IsDotted encoding ∧ e.stripped .binary = e.unlined

def PlainFunctionName (encoding : Encoding) (isLocal : Bool) (name : Option Expr) : Prop :=
  FunctionName encoding isLocal name ∧ strippedOption .binary name = unlinedOption name

def Stat.PlainInner (encoding : Encoding) (s : Stat) : Prop :=
  s.Plain encoding ∧ s.isLast = false

section Statements

variable {encoding : Encoding} {e : Entry}

theorem plainDotted_foldl {members : List Name} {base : Expr} (hbase : base.PlainDotted encoding)
    (hmembers : ∀ n ∈ members, n.Plain encoding) :
    (members.foldl (fun base member => Expr.member base .dot member) base).PlainDotted
      encoding := by
  induction members generalizing base with
  | nil => exact hbase
  | cons n rest ih =>
      have hn := hmembers n (by simp)
      refine ih ⟨⟨rfl, hbase.1, hn.1⟩, ?_⟩ fun n' hn' => hmembers n' (by simp [hn'])
      simp only [Expr.stripped, Expr.unlined, hbase.2, hn.stripped_eq]

theorem plainFunctionName_of_dotted {base : Expr} (h : base.PlainDotted encoding) :
    PlainFunctionName encoding false (some base) := by
  refine ⟨?_, congrArg some h.2⟩
  cases base with
  | name n => exact h.1
  | member base indexer n => exact ⟨rfl, h.1.2⟩
  | _ => exact h.1.elim

theorem yields_functionName :
    Yields encoding functionName fun e => PlainFunctionName encoding false (some e) := by
  refine yields_name.need.bind fun first hfirst => ?_
  refine ((yields_sign ".").bind fun _ _ => yields_name).many.bind fun members hmembers => ?_
  have hstart : (Expr.name first).PlainDotted encoding :=
    ⟨hfirst.1, congrArg Expr.name hfirst.stripped_eq⟩
  have hbase := plainDotted_foldl hstart hmembers
  refine ((yields_sign ":").bind fun _ _ => yields_name.need).optional.bind fun method hmethod => ?_
  cases method with
  | none => exact yields_pure (plainFunctionName_of_dotted hbase)
  | some n =>
      have hn := hmethod n rfl
      refine yields_pure ⟨⟨rfl, hbase.1, hn.1⟩, ?_⟩
      simp only [strippedOption, unlinedOption, Expr.stripped, Expr.unlined, hbase.2,
        hn.stripped_eq]

theorem yields_localVar :
    Yields encoding localVar fun v => v.WellFormed encoding ∧ v.stripped = v.unlined := by
  refine yields_name.need.bind fun n hn => ?_
  have hattrib : Yields encoding
      (do
        let _ ← sign "<"
        let t ← Parser.need (kind .name)
        let _ ← Parser.need (sign ">")
        return ({ name := t.text, line := t.line } : Attribute))
      fun a => Spelled encoding .name a.name := by
    refine (yields_sign "<").bind fun _ _ => ?_
    refine (yields_kind .name (by simp)).need.bind fun t ht => ?_
    exact (yields_sign ">").need.bind fun _ _ => yields_pure ht
  refine hattrib.optional.bind fun attrib ha => yields_pure ⟨⟨hn.1, ha⟩, ?_⟩
  exact congrArg₂ LocalVar.mk hn.stripped_eq rfl

variable (he : e.Yields encoding)
include he

theorem yields_target :
    Yields encoding (target e) fun e => e.Plain encoding ∧ e.isTarget = true := by
  refine (yields_suffixed he).bind fun s hs => ?_
  cases hending : s.ending with
  | name => exact yields_pure ⟨hs.plain, hs.target (Or.inl hending)⟩
  | index => exact yields_pure ⟨hs.plain, hs.target (Or.inr hending)⟩
  | paren => exact yields_nothing
  | call => exact yields_nothing

omit he in
theorem plain_assign {first : Suffixed} {more values : List Expr} (hfirst : first.Plain encoding)
    (hending : first.ending = .name ∨ first.ending = .index)
    (hmore : ∀ e ∈ more, e.Plain encoding ∧ e.isTarget = true)
    (hvalues : values ≠ [] ∧ ∀ e ∈ values, e.Plain encoding) :
    (Stat.assign (first.expr :: more) values).PlainInner encoding := by
  have htargets : ∀ e ∈ first.expr :: more, e.Plain encoding ∧ e.isTarget = true := by
    simpa using ⟨⟨hfirst.plain, hfirst.target hending⟩, hmore⟩
  have hplain := plain_exprs fun e he => (htargets e he).1
  have hvalues' := plain_exprs hvalues.2
  refine ⟨⟨⟨by simp, hvalues.1, ?_, hplain.1, hvalues'.1⟩, ?_⟩, rfl⟩
  · exact List.all_eq_true.mpr fun e he => (htargets e he).2
  · exact congrArg₂ Stat.assign hplain.2 hvalues'.2

theorem yields_callOrAssign : Yields encoding (callOrAssign e) (Stat.PlainInner encoding) := by
  refine (yields_suffixed he).bind fun s hs => ?_
  have hassign : s.ending = .name ∨ s.ending = .index → Yields encoding
      (do
        let more ← many (do let _ ← sign ","; target e)
        let _ ← sign "="
        let values ← Parser.need (separated (e.expr 1))
        return Stat.assign (s.expr :: more) values)
      (Stat.PlainInner encoding) := by
    intro hending
    refine ((yields_sign ",").bind fun _ _ => yields_target he).many.bind fun more hmore => ?_
    refine (yields_sign "=").bind fun _ _ => ?_
    refine (he.expr 1).separated.need.bind fun values hvalues => yields_pure ?_
    exact plain_assign hs hending hmore hvalues
  cases hending : s.ending with
  | name => exact hassign (Or.inl hending)
  | index => exact hassign (Or.inr hending)
  | paren => exact yields_nothing
  | call =>
      have hcall := hs.call hending
      exact yields_pure ⟨⟨⟨hcall.1, hcall.2, hs.plain.1⟩, congrArg Stat.call hs.plain.2⟩, rfl⟩

theorem yields_doBlock : Yields encoding (doBlock e) (Stat.PlainInner encoding) := by
  refine (yields_sign "do").bind fun _ _ => ?_
  refine he.block.bind fun body hbody => ?_
  refine (yields_sign "end").need.bind fun _ _ => yields_pure ?_
  exact ⟨⟨hbody.1, congrArg Stat.block hbody.2⟩, rfl⟩

theorem yields_whileLoop : Yields encoding (whileLoop e) (Stat.PlainInner encoding) := by
  refine (yields_sign "while").bind fun _ _ => ?_
  refine (he.expr 1).need.bind fun condition hcondition => ?_
  refine (yields_sign "do").need.bind fun _ _ => ?_
  refine he.block.bind fun body hbody => ?_
  refine (yields_sign "end").need.bind fun _ _ => yields_pure ?_
  exact ⟨⟨⟨hcondition.1, hbody.1⟩, congrArg₂ Stat.whileLoop hcondition.2 hbody.2⟩, rfl⟩

theorem yields_repeatLoop : Yields encoding (repeatLoop e) (Stat.PlainInner encoding) := by
  refine (yields_sign "repeat").bind fun _ _ => ?_
  refine he.block.bind fun body hbody => ?_
  refine (yields_sign "until").need.bind fun _ _ => ?_
  refine (he.expr 1).need.bind fun condition hcondition => yields_pure ?_
  exact ⟨⟨⟨hbody.1, hcondition.1⟩, congrArg₂ Stat.repeatLoop hbody.2 hcondition.2⟩, rfl⟩

theorem yields_nextClause :
    Yields encoding (nextClause e) fun c =>
      ∃ condition body, c = .next condition body ∧ c.Plain encoding := by
  refine (yields_sign "elseif").bind fun t _ => ?_
  refine ((he.expr 1).needOn t.line).bind fun condition hcondition => ?_
  refine ((yields_sign "then").needOn t.line).bind fun _ _ => ?_
  refine he.block.bind fun body hbody => yields_pure ⟨condition, body, rfl, ?_⟩
  exact ⟨⟨hcondition.1, hbody.1⟩, congrArg₂ Clause.next hcondition.2 hbody.2⟩

omit he in
theorem plain_choice {condition : Expr} {body : List Stat} {more : List Clause}
    {last : Option (List Stat)} (hcondition : condition.Plain encoding)
    (hbody : PlainBlock encoding body)
    (hmore : ∀ c ∈ more, ∃ condition body, c = .next condition body ∧ c.Plain encoding)
    (hlast : ∀ body ∈ last, PlainBlock encoding body) :
    (Stat.choice (.first condition body :: more
      ++ (last.map Clause.otherwise).toList)).PlainInner encoding := by
  have hshape : furtherClauses (more ++ (last.map Clause.otherwise).toList) = true := by
    clear hbody hcondition
    induction more with
    | nil => cases last <;> rfl
    | cons c rest ih =>
        rcases hmore c (by simp) with ⟨condition, body, rfl, _⟩
        exact ih fun c hc => hmore c (by simp [hc])
  have hall : ∀ c ∈ Clause.first condition body :: more ++ (last.map Clause.otherwise).toList,
      c.Plain encoding := by
    intro c hc
    simp only [List.cons_append, List.mem_cons, List.mem_append, Option.mem_toList,
      Option.map_eq_some_iff] at hc
    rcases hc with rfl | hc | ⟨body, hbody, rfl⟩
    · exact ⟨⟨hcondition.1, hbody.1⟩, congrArg₂ Clause.first hcondition.2 hbody.2⟩
    · rcases hmore c hc with ⟨_, _, _, hplain⟩
      exact hplain
    · have hplain := hlast body hbody
      exact ⟨hplain.1, congrArg Clause.otherwise hplain.2⟩
  have hclauses := plain_clauses hall
  exact ⟨⟨⟨hshape, hclauses.1⟩, congrArg Stat.choice hclauses.2⟩, rfl⟩

theorem yields_choice : Yields encoding (choice e) (Stat.PlainInner encoding) := by
  refine (yields_sign "if").bind fun _ _ => ?_
  refine (he.expr 1).need.bind fun condition hcondition => ?_
  refine (yields_sign "then").need.bind fun _ _ => ?_
  refine he.block.bind fun body hbody => ?_
  refine (yields_nextClause he).many.bind fun more hmore => ?_
  refine ((yields_sign "else").bind fun _ _ => he.block).optional.bind fun last hlast => ?_
  refine (yields_sign "end").need.bind fun _ _ => yields_pure ?_
  exact plain_choice hcondition hbody hmore hlast

theorem yields_forRange : Yields encoding (forRange e) (Stat.PlainInner encoding) := by
  refine (yields_sign "for").bind fun _ _ => ?_
  refine yields_name.need.bind fun counter hcounter => ?_
  refine (yields_sign "=").bind fun _ _ => ?_
  refine (he.expr 1).need.bind fun first hfirst => ?_
  refine (yields_sign ",").need.bind fun _ _ => ?_
  refine (he.expr 1).need.bind fun last hlast => ?_
  refine ((yields_sign ",").bind fun _ _ => (he.expr 1).need).optional.bind fun step hstep => ?_
  refine (yields_sign "do").need.bind fun _ _ => ?_
  refine he.block.bind fun body hbody => ?_
  refine (yields_sign "end").need.bind fun _ _ => yields_pure ?_
  have hoption : optionWellFormed encoding step ∧
      strippedOption .binary step = unlinedOption step := by
    cases step with
    | none => exact ⟨trivial, rfl⟩
    | some s => exact ⟨(hstep s rfl).1, congrArg some (hstep s rfl).2⟩
  refine ⟨⟨⟨hcounter.1, hfirst.1, hlast.1, hoption.1, hbody.1⟩, ?_⟩, rfl⟩
  have hblock : strippedBlock .binary body = unlinedBlock body := hbody.2
  simp only [Stat.stripped, Stat.unlined, hcounter.stripped_eq, hfirst.2, hlast.2, hoption.2,
    hblock]

theorem yields_forEach : Yields encoding (forEach e) (Stat.PlainInner encoding) := by
  refine (yields_sign "for").bind fun _ _ => ?_
  refine yields_name.separated.need.bind fun vars hvars => ?_
  refine (yields_sign "in").need.bind fun _ _ => ?_
  refine (he.expr 1).separated.need.bind fun iterators hiterators => ?_
  refine (yields_sign "do").need.bind fun _ _ => ?_
  refine he.block.bind fun body hbody => ?_
  refine (yields_sign "end").need.bind fun _ _ => yields_pure ?_
  have hplain := plain_exprs hiterators.2
  have hnames : vars.map Name.stripped = vars := by
    refine (List.map_congr_left fun n hn => (hvars.2 n hn).stripped_eq).trans ?_
    exact List.map_id vars
  have hblock : strippedBlock .binary body = unlinedBlock body := hbody.2
  refine ⟨⟨⟨hvars.1, fun n hn => (hvars.2 n hn).1, hiterators.1, hplain.1, hbody.1⟩, ?_⟩, rfl⟩
  simp only [Stat.stripped, Stat.unlined, hnames, hplain.2, hblock]

omit he in
theorem plain_function {isLocal : Bool} {name : Option Expr} {ps : List Expr} {body : List Stat}
    (hname : PlainFunctionName encoding isLocal name)
    (hparameters : Parameters encoding ps ∧ strippedExprs .binary ps = unlinedExprs ps)
    (hbody : PlainBlock encoding body) :
    (Stat.function isLocal name ps body).PlainInner encoding := by
  have hblock : strippedBlock .binary body = unlinedBlock body := hbody.2
  refine ⟨⟨⟨hname.1, hparameters.1, hbody.1⟩, ?_⟩, rfl⟩
  simp only [Stat.stripped, Stat.unlined, hname.2, hparameters.2, hblock]

theorem yields_functionDeclaration :
    Yields encoding (functionDeclaration e) (Stat.PlainInner encoding) := by
  refine (yields_sign "function").bind fun _ _ => ?_
  refine yields_functionName.bind fun name hname => ?_
  refine (yields_functionBody he).bind fun found hfound => yields_pure ?_
  exact plain_function hname hfound.1 hfound.2

theorem yields_localFunction : Yields encoding (localFunction e) (Stat.PlainInner encoding) := by
  refine (yields_sign "local").bind fun _ _ => ?_
  refine (yields_sign "function").bind fun _ _ => ?_
  refine yields_name.need.bind fun name hname => ?_
  refine (yields_functionBody he).bind fun found hfound => yields_pure ?_
  have heq : strippedOption .binary (some (.name name)) = unlinedOption (some (.name name)) := by
    simp only [strippedOption, unlinedOption, Expr.stripped, Expr.unlined, hname.stripped_eq]
  exact plain_function ⟨hname.1, heq⟩ hfound.1 hfound.2

theorem yields_locals : Yields encoding (locals e) (Stat.PlainInner encoding) := by
  refine (yields_sign "local").bind fun _ _ => ?_
  refine yields_localVar.bind fun first hfirst => ?_
  refine ((yields_sign ",").bind fun _ _ => yields_localVar).many.bind fun more hmore => ?_
  refine ((yields_sign "=").bind fun _ _ =>
    (he.expr 1).separated.need.failHere).optional.bind fun values hvalues => yields_pure ?_
  have hvars : ∀ v ∈ first :: more, v.WellFormed encoding ∧ v.stripped = v.unlined := by
    simpa using ⟨hfirst, hmore⟩
  have hall : ∀ e ∈ values.getD [], e.Plain encoding := by
    cases values with
    | none => simp
    | some values => exact (hvalues values rfl).2
  have hplain := plain_exprs hall
  refine ⟨⟨⟨by simp, fun v hv => (hvars v hv).1, hplain.1⟩, ?_⟩, rfl⟩
  exact congrArg₂ Stat.locals (List.map_congr_left fun v hv => (hvars v hv).2) hplain.2

theorem yields_statement : Yields encoding (statement e) (Stat.PlainInner encoding) := by
  refine (yields_callOrAssign he).orElse ?_
  refine (yields_doBlock he).orElse ?_
  refine (yields_whileLoop he).orElse ?_
  refine (yields_repeatLoop he).orElse ?_
  refine (yields_choice he).orElse ?_
  refine (yields_forRange he).orElse ?_
  refine (yields_forEach he).orElse ?_
  refine (yields_functionDeclaration he).orElse ?_
  refine (yields_localFunction he).orElse ?_
  refine (yields_locals he).orElse (Yields.orElse ?goto ?label)
  case goto =>
    refine (yields_sign "goto").bind fun _ _ => ?_
    refine yields_name.need.bind fun n hn => yields_pure ?_
    exact ⟨⟨hn.1, congrArg Stat.goto hn.stripped_eq⟩, rfl⟩
  case label =>
    refine (yields_sign "::").bind fun _ _ => ?_
    refine yields_name.need.bind fun n hn => ?_
    refine (yields_sign "::").need.bind fun _ _ => yields_pure ?_
    exact ⟨⟨hn.1, congrArg Stat.label hn.stripped_eq⟩, rfl⟩

theorem yields_lastStatement : Yields encoding (lastStatement e) (Stat.Plain encoding) := by
  apply Yields.orElse
  · refine (yields_sign "return").bind fun _ _ => ?_
    refine (yields_expressions he).bind fun values hvalues => yields_pure ?_
    have hplain := plain_exprs hvalues
    exact ⟨hplain.1, congrArg Stat.ret hplain.2⟩
  · exact (yields_sign "break").bind fun _ _ => yields_pure ⟨trivial, rfl⟩

omit he in
theorem Yields.terminated {p : Parser Stat} {Q : Stat → Prop} (hp : Yields encoding p Q) :
    Yields encoding (terminated p) Q := by
  refine hp.bind fun s hs => ?_
  exact (yields_sign ";").optional.bind fun _ _ => yields_pure hs

theorem yields_block : Yields encoding (block e) (PlainBlock encoding) := by
  refine (yields_statement he).terminated.many.bind fun body hbody => ?_
  refine (yields_lastStatement he).terminated.optional.bind fun last hlast => ?_
  exact yields_pure (plain_block hbody hlast)

end Statements

/-!
## Sources
-/

theorem yields_fail {encoding : Encoding} {Q : α → Prop} :
    Yields encoding (fail : Parser α) Q := by
  constructor
  intro ts a rest hts hrun
  cases hrun

theorem yields_entry (encoding : Encoding) (depth : Nat) : (entry depth).Yields encoding := by
  induction depth with
  | zero => exact ⟨fun _ => yields_fail, yields_fail⟩
  | succ depth ih => exact ⟨yields_expression ih, yields_block ih⟩

theorem plain_of_program {encoding : Encoding} {ts : List Token} {body : List Stat}
    (hts : Genuine encoding ts) (h : program ts = .ok body) : PlainBlock encoding body := by
  have hsource : Yields encoding
      (do
        let body ← (entry (ts.length + 1)).block
        let _ ← Parser.need (kind .finish)
        return body)
      (PlainBlock encoding) := by
    refine (yields_entry encoding _).block.bind fun body hbody => ?_
    exact (yields_tokenIf _).need.bind fun _ _ => yields_pure hbody
  unfold program at h
  simp only at h
  split at h
  · rename_i found rest hfound
    cases h
    exact (hsource.run hts hfound).1
  · cases h
  · cases h

theorem genuine_of_lexFrom {encoding : Encoding} {fuel line : Nat} {text : List Char}
    {lexemes : List Lexeme} (htext : text.all (admits encoding) = true)
    (h : lexFrom fuel line text = .ok lexemes) (adjoins : Bool) :
    Genuine encoding (tokensFrom adjoins lexemes) := by
  have hlexed := lexedAs_of_lexFrom h
  clear h
  induction hlexed generalizing adjoins with
  | finish => simp [tokensFrom, Lexeme.Kind.isTrivia, Genuine, Token.IsGenuine]
  | cut hcut _ ih =>
      rw [cutLexeme_append hcut, List.all_append, Bool.and_eq_true] at htext
      rw [tokensFrom]
      split
      · exact ih htext.2 false
      · intro t ht
        rcases List.mem_cons.mp ht with rfl | ht
        · intro hkind
          exact ⟨alone_of_cutLexeme hcut hkind, by simpa using htext.1⟩
        · exact ih htext.2 true t ht

end Lua
end LuaBundle
