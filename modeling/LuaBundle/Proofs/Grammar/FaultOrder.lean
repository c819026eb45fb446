import LuaBundle.Proofs.Grammar.Standing
import LuaBundle.Proofs.Printing.Readable

/-!
# The first fault of a source

Every rule of the grammar scans its tokens: the faults of the tree that it finds, in the order
in which the tree lists them, are the faults of its tokens, in order.  So what is reported of
a source is its first token at fault.
-/

namespace LuaBundle
namespace Lua

open Text
open LuaBundle.Lua.Parser

/-!
## Faults of lists
-/

section Lists

variable (encoding : Encoding) (rest : Bool)

theorem exprFaults_eq (es : List Expr) :
    exprFaults encoding rest es = es.flatMap (Expr.faults encoding rest) := by
  induction es with
  | nil => rfl
  | cons e more ih => rw [exprFaults, List.flatMap_cons, ih]

theorem fieldFaults_eq (fs : List Field) :
    fieldFaults encoding rest fs = fs.flatMap (Field.faults encoding rest) := by
  induction fs with
  | nil => rfl
  | cons f more ih => rw [fieldFaults, List.flatMap_cons, ih]

theorem blockFaults_eq (body : List Stat) :
    blockFaults encoding rest body = body.flatMap (Stat.faults encoding rest) := by
  induction body with
  | nil => rfl
  | cons s more ih => rw [blockFaults, List.flatMap_cons, ih]

theorem clauseFaults_eq (clauses : List Clause) :
    clauseFaults encoding rest clauses = clauses.flatMap (Clause.faults encoding rest) := by
  induction clauses with
  | nil => rfl
  | cons c more ih => rw [clauseFaults, List.flatMap_cons, ih]

theorem parenthesized_faults (e : Expr) :
    e.parenthesized.faults encoding rest = e.faults encoding rest := by
  cases e <;> rfl

end Lists

/-!
## Rules of expressions
-/

/-- An entry whose expressions and blocks scan their tokens wherever they stand. -/
structure Entry.Scans (encoding : Encoding) (e : Entry) : Prop where
  expr : ∀ precedence blocks, Lua.Scans encoding ⟨.no, blocks⟩ (e.expr precedence)
    (Leaves (Expr.faults encoding (takesRestIn blocks)) ⟨.no, blocks⟩)
  block : ∀ d blocks, Declaring.Idle d → Lua.Scans encoding ⟨d, blocks⟩ e.block
    (LeavesIdle (blockFaults encoding (takesRestIn blocks)) blocks)

section Rules

variable {encoding : Encoding} {e : Entry} {blocks : List (Option Bool)} {d : Declaring}

theorem scans_stringLit :
    Scans encoding ⟨.no, blocks⟩ stringLit (Leaves (StringLit.faults encoding) ⟨.no, blocks⟩) := by
  have htoken : Scans encoding ⟨.no, blocks⟩ (kind .string)
      (Leaves (fun t => StringLit.faults encoding ⟨t.text, t.line⟩) ⟨.no, blocks⟩) := by
    apply scans_tokenIf
    intro t ht
    have hkind : t.kind = .string := beq_iff_eq.mp ht
    constructor
    · simp only [Token.fault?, hkind, StringLit.faults, StringLit.bytes]
      cases literalBytes encoding t.text.toList <;> rfl
    · simp [Standing.step, Declaring.step, Declaring.start, Token.is, hkind]
  exact htoken.next fun t => scans_pure ⟨List.append_nil _, rfl⟩

theorem scans_numeral :
    Scans encoding ⟨.no, blocks⟩ (kind .number)
      (Leaves (fun t => (Numeral.written t.text).faults t.line) ⟨.no, blocks⟩) := by
  apply scans_tokenIf
  intro t ht
  have hkind : t.kind = .number := beq_iff_eq.mp ht
  constructor
  · simp only [Token.fault?, hkind, Numeral.faults]
    cases numeralValue? t.text.toList <;> rfl
  · simp [Standing.step, Declaring.step, Declaring.start, Token.is, hkind]

/-- As an expression `...` is at fault where no further arguments are taken. -/
theorem scans_rest :
    Scans encoding ⟨.no, blocks⟩ rest
      (Leaves (Expr.faults encoding (takesRestIn blocks)) ⟨.no, blocks⟩) := by
  have htoken : Scans encoding ⟨.no, blocks⟩ (sign "...")
      (Leaves (fun t => (Expr.vararg false t.line).faults encoding (takesRestIn blocks))
        ⟨.no, blocks⟩) := by
    apply scans_tokenIf
    rintro ⟨kind, word, line, adjoins⟩ ht
    simp only [Token.is, Bool.and_eq_true, beq_iff_eq] at ht
    rcases ht with ⟨rfl, rfl⟩
    constructor
    · cases hrest : takesRestIn blocks <;> simp [Token.fault?, Expr.faults, hrest]
    · simp [Standing.step, Declaring.step, Declaring.start, Token.is]
  exact htoken.next fun t => scans_pure ⟨List.append_nil _, rfl⟩

theorem scans_restParameter {b : Option Bool} :
    Scans encoding ⟨.parameters, b :: blocks⟩ rest fun a fs u =>
      (∃ line, a = .vararg false line) ∧ fs = [] ∧ u = ⟨.parameters, some true :: blocks⟩ := by
  have htoken : Scans encoding ⟨.parameters, b :: blocks⟩ (sign "...")
      (Leaves (fun _ => []) ⟨.parameters, some true :: blocks⟩) := by
    apply scans_tokenIf
    rintro ⟨kind, word, line, adjoins⟩ ht
    simp only [Token.is, Bool.and_eq_true, beq_iff_eq] at ht
    rcases ht with ⟨rfl, rfl⟩
    constructor
    · simp [Token.fault?]
    · simp [Standing.step, Declaring.step, Token.is]
  exact htoken.pass fun t => scans_pure ⟨⟨t.line, rfl⟩, rfl, rfl⟩

theorem takesRest_names (names : List Name) (last : List Expr) :
    takesRest (names.map Expr.name ++ last) = takesRest last := by
  induction names with
  | nil => rfl
  | cons n more ih => exact ih

theorem scans_names {s u : Standing} (hfirst : Scans encoding s name (Leaves (fun _ => []) u))
    (hmore : Scans encoding u (do let _ ← sign ","; name) (Leaves (fun _ => []) u)) :
    Scans encoding s (separated name) (Leaves (fun _ => []) u) := by
  apply (scans_separated hfirst hmore).mono
  rintro names fs v ⟨rfl, rfl⟩
  exact ⟨by simp, rfl⟩

theorem scans_lastParameter {p : Parser Expr}
    (hp : Scans encoding ⟨.parameters, some false :: blocks⟩ p fun a fs u =>
      (∃ line, a = .vararg false line) ∧ fs = [] ∧ u = ⟨.parameters, some true :: blocks⟩) :
    Scans encoding ⟨.parameters, some false :: blocks⟩ (LuaBundle.Lua.Parser.optional p)
      fun last fs u =>
        fs = [] ∧ u = ⟨.parameters, some (takesRest last.toList) :: blocks⟩ := by
  apply Scans.optional
  · apply hp.mono
    rintro a fs u ⟨⟨line, rfl⟩, rfl, rfl⟩
    exact ⟨rfl, rfl⟩
  · exact ⟨rfl, rfl⟩

theorem scans_parameters :
    Scans encoding ⟨.parameters, some false :: blocks⟩ parameters fun ps fs u =>
      fs = [] ∧ u = ⟨.parameters, some (takesRest ps) :: blocks⟩ := by
  apply Scans.orElse
  · have hname : Scans encoding ⟨.parameters, some false :: blocks⟩ name
        (Leaves (fun _ => []) ⟨.parameters, some false :: blocks⟩) :=
      scans_functionName (Or.inr rfl)
    refine (scans_names hname (scans_parametersComma.pass fun _ => hname)).pass fun names => ?_
    refine (scans_lastParameter (scans_parametersComma.pass fun _ =>
      scans_restParameter)).bind ?_
    rintro last fs u ⟨rfl, rfl⟩
    apply scans_pure
    rw [takesRest_names]
    exact ⟨rfl, rfl⟩
  · refine (scans_lastParameter scans_restParameter).bind ?_
    rintro last fs u ⟨rfl, rfl⟩
    exact scans_pure ⟨rfl, rfl⟩

variable (he : e.Scans encoding)
include he

theorem scans_expressions :
    Scans encoding ⟨.no, blocks⟩ (expressions e)
      (Leaves (exprFaults encoding (takesRestIn blocks)) ⟨.no, blocks⟩) := by
  refine (he.expr 1 blocks).maybe.next fun o => ?_
  cases o with
  | none => exact scans_pure ⟨rfl, rfl⟩
  | some first =>
      refine ((scans_plain (by decide)).pass fun _ =>
        (he.expr 1 blocks).need).many.next fun more => scans_pure ?_
      exact ⟨by simp [exprFaults_eq], rfl⟩

theorem scans_field :
    Scans encoding ⟨.no, blocks⟩ (field e)
      (Leaves (Field.faults encoding (takesRestIn blocks)) ⟨.no, blocks⟩) := by
  refine Scans.orElse ?keyed (Scans.orElse ?named ?positional)
  case keyed =>
    refine (scans_plain (by decide)).pass fun _ => ?_
    refine (he.expr 1 blocks).need.next fun key => ?_
    refine (scans_plain (by decide)).need.pass fun _ => ?_
    refine (scans_plain (by decide)).need.pass fun _ => ?_
    refine (he.expr 1 blocks).need.next fun value => scans_pure ?_
    exact ⟨by simp [Field.faults], rfl⟩
  case named =>
    refine (scans_used .no).pass fun n => ?_
    refine (scans_plain (by decide)).pass fun _ => ?_
    refine (he.expr 1 blocks).need.next fun value => scans_pure ?_
    exact ⟨List.append_nil _, rfl⟩
  case positional =>
    refine (he.expr 1 blocks).next fun value => scans_pure ?_
    exact ⟨List.append_nil _, rfl⟩

theorem scans_fieldsIn (fuel : Nat) :
    Scans encoding ⟨.no, blocks⟩ (fieldsIn e fuel)
      (Leaves (fieldFaults encoding (takesRestIn blocks)) ⟨.no, blocks⟩) := by
  induction fuel with
  | zero => exact scans_pure ⟨rfl, rfl⟩
  | succ fuel ih =>
      refine (scans_field he).maybe.next fun o => ?_
      cases o with
      | none => exact scans_pure ⟨rfl, rfl⟩
      | some first =>
          have hseparator : Scans encoding ⟨.no, blocks⟩ (sign "," <|> sign ";")
              (Leaves (fun _ => []) ⟨.no, blocks⟩) :=
            (scans_plain (by decide)).orElse (scans_plain (by decide))
          refine hseparator.maybe.next fun separator => ?_
          cases separator with
          | none => exact scans_pure ⟨by simp [fieldFaults_eq], rfl⟩
          | some _ => exact ih.next fun more => scans_pure ⟨by simp [fieldFaults_eq], rfl⟩

theorem scans_tableFields :
    Scans encoding ⟨.no, blocks⟩ (tableFields e)
      (Leaves (fun found => fieldFaults encoding (takesRestIn blocks) found.1)
        ⟨.no, blocks⟩) := by
  refine (scans_plain (by decide)).pass fun opening => ?_
  refine (scans_measured (scans_fieldsIn he)).next fun fields => ?_
  refine (scans_plain (by decide)).need.pass fun _ => scans_pure ?_
  exact ⟨List.append_nil _, rfl⟩

/-- From the parameters to the `end`: only the body has faults, and `...` may stand in it as
the parameters say. -/
theorem scans_functionBody :
    Scans encoding ⟨.header, some false :: blocks⟩ (functionBody e)
      (Leaves (fun found => blockFaults encoding (takesRest found.1) found.2) ⟨.no, blocks⟩) := by
  refine scans_parametersOpening.need.pass fun _ => ?_
  refine scans_parameters.bind ?_
  rintro ps fs u ⟨rfl, rfl⟩
  refine scans_parametersClosing.need.pass fun _ => ?_
  refine (he.block .no (some (takesRest ps) :: blocks) .no).idle fun body d hd => ?_
  refine (scans_close hd (by decide)).need.pass fun _ => scans_pure ?_
  exact ⟨List.append_nil _, rfl⟩

theorem scans_arguments :
    Scans encoding ⟨.no, blocks⟩ (arguments e)
      (Leaves (fun found => found.1.faults encoding (takesRestIn blocks)) ⟨.no, blocks⟩) := by
  refine Scans.orElse ?list (Scans.orElse ?table ?string)
  case list =>
    refine (scans_plain (by decide)).pass fun opening => ?_
    refine (scans_expressions he).next fun list => ?_
    refine (scans_plain (by decide)).need.pass fun _ => scans_pure ?_
    exact ⟨List.append_nil _, rfl⟩
  case table => exact (scans_tableFields he).next fun found => scans_pure ⟨List.append_nil _, rfl⟩
  case string => exact scans_stringLit.next fun literal => scans_pure ⟨List.append_nil _, rfl⟩

theorem scans_suffix (base : Suffixed) :
    Scans encoding ⟨.no, blocks⟩ (suffix e base) fun s fs u =>
      s.expr.faults encoding (takesRestIn blocks) =
        base.expr.faults encoding (takesRestIn blocks) ++ fs ∧ u = ⟨.no, blocks⟩ := by
  refine Scans.orElse ?call (Scans.orElse ?method (Scans.orElse ?index ?member))
  case call =>
    refine (scans_arguments he).next fun found => scans_pure ?_
    exact ⟨by simp [Expr.faults], rfl⟩
  case method =>
    refine (scans_plain (by decide)).pass fun _ => ?_
    refine (scans_used .no).need.pass fun method => ?_
    refine (scans_arguments he).need.next fun found => scans_pure ?_
    exact ⟨by simp [Expr.faults], rfl⟩
  case index =>
    refine (scans_plain (by decide)).pass fun _ => ?_
    refine (he.expr 1 blocks).need.next fun key => ?_
    refine (scans_plain (by decide)).need.pass fun _ => scans_pure ?_
    exact ⟨by simp [Expr.faults], rfl⟩
  case member =>
    refine (scans_plain (by decide)).pass fun _ => ?_
    refine (scans_used .no).need.pass fun member => scans_pure ?_
    exact ⟨by simp [Expr.faults], rfl⟩

theorem scans_paren (hd : d.Idle) :
    Scans encoding ⟨d, blocks⟩ (paren e)
      (Leaves (Expr.faults encoding (takesRestIn blocks)) ⟨.no, blocks⟩) := by
  refine (scans_idle hd (by decide)).pass fun _ => ?_
  refine (he.expr 1 blocks).need.next fun inner => ?_
  refine (scans_plain (by decide)).need.pass fun _ => scans_pure ?_
  exact ⟨by simp [parenthesized_faults], rfl⟩

theorem scans_suffixed (hd : d.Idle) :
    Scans encoding ⟨d, blocks⟩ (suffixed e)
      (Leaves (fun s => s.expr.faults encoding (takesRestIn blocks)) ⟨.no, blocks⟩) := by
  have hstart : Scans encoding ⟨d, blocks⟩
      ((do let inner ← paren e; return ⟨inner, .paren⟩)
        <|> (do let name ← name; return ⟨.name name, .name⟩))
      (Leaves (fun s : Suffixed => s.expr.faults encoding (takesRestIn blocks))
        ⟨.no, blocks⟩) := by
    apply Scans.orElse
    · exact (scans_paren he hd).next fun inner => scans_pure ⟨List.append_nil _, rfl⟩
    · exact (scans_used hd).pass fun n => scans_pure ⟨rfl, rfl⟩
  refine hstart.next fun start => (scans_grow (scans_suffix he) start).mono ?_
  rintro s fs u ⟨hs, rfl⟩
  exact ⟨hs.symm, rfl⟩

omit he in
theorem plain_of_ofSign {t : Token} {op : BinaryOp}
    (h : (if t.kind = .reserved then BinaryOp.ofSign? t.text else none) = some op) :
    t.kind = .reserved ∧ t.text ∉ markers := by
  split at h
  · rename_i hkind
    unfold BinaryOp.ofSign? at h
    have hfound := List.find?_some h
    rw [← beq_iff_eq.mp hfound]
    exact ⟨hkind, by cases op <;> decide⟩
  · cases h

omit he in
theorem plain_of_unarySign {t : Token} {op : UnaryOp}
    (h : (if t.kind = .reserved then UnaryOp.ofSign? t.text else none) = some op) :
    t.kind = .reserved ∧ t.text ∉ markers := by
  split at h
  · rename_i hkind
    unfold UnaryOp.ofSign? at h
    have hfound := List.find?_some h
    rw [← beq_iff_eq.mp hfound]
    exact ⟨hkind, by cases op <;> decide⟩
  · cases h

omit he in
theorem faultsFrom_plain {t : Token} {ts : List Token}
    (h : t.kind = .reserved ∧ t.text ∉ markers) :
    faultsFrom encoding ⟨.no, blocks⟩ (t :: ts) = faultsFrom encoding ⟨.no, blocks⟩ ts := by
  have hpass : (t.fault? encoding ⟨.no, blocks⟩).toList = [] ∧
      Standing.step ⟨.no, blocks⟩ t = ⟨.no, blocks⟩ := passes_plain h.1 h.2
  rw [faultsFrom, hpass.1, hpass.2]
  rfl

omit he in
theorem scans_unaryOp :
    Scans encoding ⟨.no, blocks⟩ unaryOp (Leaves (fun _ => []) ⟨.no, blocks⟩) := by
  constructor
  intro ts op more hrun
  cases ts with
  | nil => cases hrun
  | cons t others =>
      simp only [unaryOp] at hrun
      split at hrun
      · rename_i hop
        cases hrun
        refine ⟨[], _, ⟨rfl, rfl⟩, List.suffix_cons t more, ?_⟩
        exact faultsFrom_plain (plain_of_unarySign hop)
      · cases hrun

omit he in
theorem scans_binaryOp :
    Scans encoding ⟨.no, blocks⟩ binaryOp (Leaves (fun _ => []) ⟨.no, blocks⟩) := by
  constructor
  intro ts op more hrun
  cases ts with
  | nil => cases hrun
  | cons t others =>
      cases others with
      | nil =>
          simp only [binaryOp] at hrun
          split at hrun
          · rename_i hop
            cases hrun
            refine ⟨[], _, ⟨rfl, rfl⟩, List.suffix_cons t [], ?_⟩
            exact faultsFrom_plain (plain_of_ofSign hop)
          · cases hrun
      | cons u others =>
          simp only [binaryOp] at hrun
          split at hrun
          · rename_i hshift
            cases hrun
            simp only [Bool.and_eq_true, is_iff] at hshift
            have ht : t.kind = .reserved ∧ t.text ∉ markers :=
              ⟨hshift.1.1.1, hshift.1.1.2 ▸ by decide⟩
            have hu : u.kind = .reserved ∧ u.text ∉ markers :=
              ⟨hshift.1.2.1, hshift.1.2.2 ▸ by decide⟩
            refine ⟨[], _, ⟨rfl, rfl⟩, ⟨[t, u], rfl⟩, ?_⟩
            exact (faultsFrom_plain ht).trans (faultsFrom_plain hu)
          · split at hrun
            · rename_i hop
              cases hrun
              refine ⟨[], _, ⟨rfl, rfl⟩, List.suffix_cons t (u :: others), ?_⟩
              exact faultsFrom_plain (plain_of_ofSign hop)
            · cases hrun

theorem scans_value :
    Scans encoding ⟨.no, blocks⟩ (value e)
      (Leaves (Expr.faults encoding (takesRestIn blocks)) ⟨.no, blocks⟩) := by
  refine Scans.orElse ?nil (Scans.orElse ?no (Scans.orElse ?yes (Scans.orElse ?number
    (Scans.orElse ?string (Scans.orElse scans_rest (Scans.orElse ?function (Scans.orElse ?table
      ?suffixed)))))))
  case nil => exact (scans_plain (by decide)).pass fun _ => scans_pure ⟨rfl, rfl⟩
  case no => exact (scans_plain (by decide)).pass fun _ => scans_pure ⟨rfl, rfl⟩
  case yes => exact (scans_plain (by decide)).pass fun _ => scans_pure ⟨rfl, rfl⟩
  case number => exact scans_numeral.next fun t => scans_pure ⟨List.append_nil _, rfl⟩
  case string => exact scans_stringLit.next fun t => scans_pure ⟨List.append_nil _, rfl⟩
  case function =>
    refine (scans_function (Or.inl .no)).pass fun _ => ?_
    exact (scans_functionBody he).next fun found => scans_pure ⟨List.append_nil _, rfl⟩
  case table => exact (scans_tableFields he).next fun found => scans_pure ⟨List.append_nil _, rfl⟩
  case suffixed => exact (scans_suffixed he .no).next fun s => scans_pure ⟨List.append_nil _, rfl⟩

theorem scans_operand :
    Scans encoding ⟨.no, blocks⟩ (operand e)
      (Leaves (Expr.faults encoding (takesRestIn blocks)) ⟨.no, blocks⟩) := by
  refine Scans.orElse ?unary (scans_value he)
  refine scans_unaryOp.pass fun op => ?_
  exact (he.expr _ blocks).need.next fun inner => scans_pure ⟨List.append_nil _, rfl⟩

theorem scans_expression (precedence : Nat) :
    Scans encoding ⟨.no, blocks⟩ (expression e precedence)
      (Leaves (Expr.faults encoding (takesRestIn blocks)) ⟨.no, blocks⟩) := by
  have hjoined : ∀ left, Scans encoding ⟨.no, blocks⟩ (joined e precedence left) fun a fs u =>
      a.faults encoding (takesRestIn blocks) =
        left.faults encoding (takesRestIn blocks) ++ fs ∧ u = ⟨.no, blocks⟩ := by
    intro left
    refine scans_binaryOp.pass fun op => ?_
    split
    · refine (he.expr _ blocks).need.next fun right => scans_pure ?_
      exact ⟨by simp [Expr.faults], rfl⟩
    · exact scans_nothing
  refine (scans_operand he).next fun first => (scans_grow hjoined first).mono ?_
  rintro a fs u ⟨ha, rfl⟩
  exact ⟨ha.symm, rfl⟩

end Rules

/-!
## Rules of statements
-/

section Statements

variable {encoding : Encoding} {e : Entry} {blocks : List (Option Bool)} {d : Declaring}

theorem scans_declaredName :
    Scans encoding ⟨.header, blocks⟩ functionName fun name fs u =>
      (∀ rest, name.faults encoding rest = []) ∧ fs = [] ∧ u = ⟨.header, blocks⟩ := by
  have hname : Scans encoding ⟨.header, blocks⟩ name
      (Leaves (fun _ => []) ⟨.header, blocks⟩) := scans_functionName (Or.inl rfl)
  have hfold : ∀ (members : List Name) (base : Expr) (rest : Bool),
      (members.foldl (fun base member => Expr.member base .dot member) base).faults encoding
        rest = base.faults encoding rest := by
    intro members base rest
    induction members generalizing base with
    | nil => rfl
    | cons n more ih => exact ih _
  refine hname.need.pass fun first => ?_
  refine ((scans_header (by decide)).pass fun _ => hname).many.next fun members => ?_
  refine ((scans_header (by decide)).pass fun _ => hname.need).maybe.next fun method => ?_
  cases method with
  | none => exact scans_pure ⟨fun rest => hfold members _ rest, by simp, rfl⟩
  | some n => exact scans_pure ⟨fun rest => hfold members _ rest, by simp, rfl⟩

theorem scans_localVar (hd : d = .afterLocal ∨ d = .name) :
    Scans encoding ⟨d, blocks⟩ localVar (Leaves LocalVar.faults ⟨.afterName, blocks⟩) := by
  have htoken : Scans encoding ⟨.attrib, blocks⟩ (kind .name)
      (Leaves (fun t => LocalVar.faults ⟨{ text := "" }, some ⟨t.text, t.line⟩⟩)
        ⟨.attrib, blocks⟩) := by
    apply scans_tokenIf
    intro t ht
    have hkind : t.kind = .name := beq_iff_eq.mp ht
    constructor
    · by_cases hknown : t.text ∈ knownAttributes <;>
        simp [Token.fault?, hkind, hknown, LocalVar.faults]
    · simp [Standing.step, Declaring.step, Token.is, hkind]
  refine (scans_declared hd).need.pass fun n => ?_
  have hattrib : Scans encoding ⟨.afterName, blocks⟩
      (do
        let _ ← sign "<"
        let t ← Parser.need (kind .name)
        let _ ← Parser.need (sign ">")
        return ({ name := t.text, line := t.line } : Attribute))
      (Leaves (fun a => LocalVar.faults ⟨n, some a⟩) ⟨.afterName, blocks⟩) := by
    refine scans_attribOpening.pass fun _ => ?_
    refine htoken.need.next fun t => ?_
    refine scans_attribClosing.need.pass fun _ => scans_pure ?_
    exact ⟨List.append_nil _, rfl⟩
  refine hattrib.maybe.next fun attrib => scans_pure ?_
  cases attrib <;> exact ⟨List.append_nil _, rfl⟩

variable (he : e.Scans encoding)
include he

theorem scans_values :
    Scans encoding ⟨.no, blocks⟩ (separated (e.expr 1))
      (Leaves (exprFaults encoding (takesRestIn blocks)) ⟨.no, blocks⟩) := by
  have hmore : Scans encoding ⟨.no, blocks⟩ (do let _ ← sign ","; e.expr 1)
      (Leaves (Expr.faults encoding (takesRestIn blocks)) ⟨.no, blocks⟩) :=
    (scans_plain (by decide)).pass fun _ => he.expr 1 blocks
  apply (scans_separated (he.expr 1 blocks) hmore).mono
  rintro es fs u ⟨rfl, rfl⟩
  exact ⟨(exprFaults_eq encoding _ es).symm, rfl⟩

theorem scans_target :
    Scans encoding ⟨.no, blocks⟩ (target e)
      (Leaves (Expr.faults encoding (takesRestIn blocks)) ⟨.no, blocks⟩) := by
  refine (scans_suffixed he .no).next fun s => ?_
  cases s.ending with
  | name => exact scans_pure ⟨List.append_nil _, rfl⟩
  | index => exact scans_pure ⟨List.append_nil _, rfl⟩
  | paren => exact scans_nothing
  | call => exact scans_nothing

theorem scans_callOrAssign (hd : d.Idle) :
    Scans encoding ⟨d, blocks⟩ (callOrAssign e)
      (LeavesIdle (Stat.faults encoding (takesRestIn blocks)) blocks) := by
  refine (scans_suffixed he hd).next fun s => ?_
  have hassign : Scans encoding ⟨.no, blocks⟩
      (do
        let more ← many (do let _ ← sign ","; target e)
        let _ ← sign "="
        let values ← Parser.need (separated (e.expr 1))
        return Stat.assign (s.expr :: more) values)
      fun a fs u => LeavesIdle (Stat.faults encoding (takesRestIn blocks)) blocks a
        (s.expr.faults encoding (takesRestIn blocks) ++ fs) u := by
    refine ((scans_plain (by decide)).pass fun _ => scans_target he).many.next fun more => ?_
    refine (scans_plain (by decide)).pass fun _ => ?_
    refine (scans_values he).need.next fun values => scans_pure ?_
    exact ⟨by simp [Stat.faults, exprFaults_eq], .no, .no, rfl⟩
  cases s.ending with
  | name => exact hassign
  | index => exact hassign
  | paren => exact scans_nothing
  | call => exact scans_pure ⟨List.append_nil _, .no, .no, rfl⟩

theorem scans_doBlock (hd : d.Idle) :
    Scans encoding ⟨d, blocks⟩ (doBlock e)
      (LeavesIdle (Stat.faults encoding (takesRestIn blocks)) blocks) := by
  refine (scans_open hd (by decide)).pass fun _ => ?_
  refine (he.block _ (none :: blocks) .no).idle fun body d' hd' => ?_
  refine (scans_close hd' (by decide)).need.pass fun _ => scans_pure ?_
  exact ⟨List.append_nil _, .no, .no, rfl⟩

theorem scans_whileLoop (hd : d.Idle) :
    Scans encoding ⟨d, blocks⟩ (whileLoop e)
      (LeavesIdle (Stat.faults encoding (takesRestIn blocks)) blocks) := by
  refine (scans_idle hd (by decide)).pass fun _ => ?_
  refine (he.expr 1 blocks).need.next fun condition => ?_
  refine (scans_open .no (by decide)).need.pass fun _ => ?_
  refine (he.block _ (none :: blocks) .no).idle fun body d' hd' => ?_
  refine (scans_close hd' (by decide)).need.pass fun _ => scans_pure ?_
  exact ⟨by simp [Stat.faults, takesRestIn], .no, .no, rfl⟩

theorem scans_repeatLoop (hd : d.Idle) :
    Scans encoding ⟨d, blocks⟩ (repeatLoop e)
      (LeavesIdle (Stat.faults encoding (takesRestIn blocks)) blocks) := by
  refine (scans_open hd (by decide)).pass fun _ => ?_
  refine (he.block _ (none :: blocks) .no).idle fun body d' hd' => ?_
  refine (scans_close hd' (by decide)).need.pass fun _ => ?_
  refine (he.expr 1 blocks).need.next fun condition => scans_pure ?_
  exact ⟨by simp [Stat.faults, takesRestIn], .no, .no, rfl⟩

theorem scans_nextClause (hd : d.Idle) :
    Scans encoding ⟨d, none :: blocks⟩ (nextClause e)
      (LeavesIdle (Clause.faults encoding (takesRestIn blocks)) (none :: blocks)) := by
  refine (scans_idle hd (by decide)).pass fun t => ?_
  refine ((he.expr 1 (none :: blocks)).needOn t.line).next fun condition => ?_
  refine ((scans_plain (by decide)).needOn t.line).pass fun _ => ?_
  refine (he.block _ (none :: blocks) .no).idle fun body d' hd' => scans_pure ?_
  exact ⟨by simp [Clause.faults, takesRestIn], d', hd', rfl⟩

theorem scans_choice (hd : d.Idle) :
    Scans encoding ⟨d, blocks⟩ (choice e)
      (LeavesIdle (Stat.faults encoding (takesRestIn blocks)) blocks) := by
  refine (scans_open hd (by decide)).pass fun _ => ?_
  refine (he.expr 1 (none :: blocks)).need.next fun condition => ?_
  refine (scans_plain (by decide)).need.pass fun _ => ?_
  refine (he.block _ (none :: blocks) .no).idle fun body d₁ hd₁ => ?_
  have hmore : Scans encoding ⟨d₁, none :: blocks⟩ (many (nextClause e))
      (LeavesIdle (clauseFaults encoding (takesRestIn blocks)) (none :: blocks)) := by
    have hround : ∀ s : Standing, (∃ d : Declaring, d.Idle ∧ s = ⟨d, none :: blocks⟩) →
        Scans encoding s (nextClause e) fun c fs u =>
          fs = c.faults encoding (takesRestIn blocks) ∧
            ∃ d : Declaring, d.Idle ∧ u = ⟨d, none :: blocks⟩ := by
      rintro s ⟨d, hd, rfl⟩
      exact scans_nextClause he hd
    apply (scans_many hround ⟨d₁, hd₁, rfl⟩).mono
    rintro clauses fs u ⟨rfl, hu⟩
    exact ⟨(clauseFaults_eq encoding _ clauses).symm, hu⟩
  refine hmore.idle fun more d₂ hd₂ => ?_
  have hlast : Scans encoding ⟨d₂, none :: blocks⟩
      (LuaBundle.Lua.Parser.optional do let _ ← sign "else"; e.block)
      (LeavesIdle (fun last => clauseFaults encoding (takesRestIn blocks)
        (last.map Clause.otherwise).toList) (none :: blocks)) := by
    apply Scans.optional
    · refine (scans_idle hd₂ (by decide)).pass fun _ => (he.block _ (none :: blocks) .no).mono ?_
      rintro body fs u ⟨rfl, hu⟩
      exact ⟨(List.append_nil _).symm, hu⟩
    · exact ⟨rfl, d₂, hd₂, rfl⟩
  refine hlast.idle fun last d₃ hd₃ => ?_
  refine (scans_close hd₃ (by decide)).need.pass fun _ => scans_pure ?_
  exact ⟨by simp [Stat.faults, Clause.faults, clauseFaults_eq, takesRestIn], .no, .no, rfl⟩

theorem scans_forRange (hd : d.Idle) :
    Scans encoding ⟨d, blocks⟩ (forRange e)
      (LeavesIdle (Stat.faults encoding (takesRestIn blocks)) blocks) := by
  refine (scans_for hd).pass fun _ => ?_
  refine (scans_declared (Or.inr rfl)).need.pass fun counter => ?_
  refine (scans_idle .afterName (by decide)).pass fun _ => ?_
  refine (he.expr 1 blocks).need.next fun first => ?_
  refine (scans_plain (by decide)).need.pass fun _ => ?_
  refine (he.expr 1 blocks).need.next fun last => ?_
  refine ((scans_plain (by decide)).pass fun _ => (he.expr 1 blocks).need).maybe.next
    fun step => ?_
  refine (scans_open .no (by decide)).need.pass fun _ => ?_
  refine (he.block _ (none :: blocks) .no).idle fun body d' hd' => ?_
  refine (scans_close hd' (by decide)).need.pass fun _ => scans_pure ?_
  cases step <;>
    exact ⟨by simp [Stat.faults, optionFaults, takesRestIn], .no, .no, rfl⟩

theorem scans_forEach (hd : d.Idle) :
    Scans encoding ⟨d, blocks⟩ (forEach e)
      (LeavesIdle (Stat.faults encoding (takesRestIn blocks)) blocks) := by
  refine (scans_for hd).pass fun _ => ?_
  refine (scans_names (scans_declared (Or.inr rfl)) (scans_nameComma.pass fun _ =>
    scans_declared (Or.inr rfl))).need.pass fun vars => ?_
  refine (scans_idle .afterName (by decide)).need.pass fun _ => ?_
  refine (scans_values he).need.next fun iterators => ?_
  refine (scans_open .no (by decide)).need.pass fun _ => ?_
  refine (he.block _ (none :: blocks) .no).idle fun body d' hd' => ?_
  refine (scans_close hd' (by decide)).need.pass fun _ => scans_pure ?_
  exact ⟨by simp [Stat.faults, takesRestIn], .no, .no, rfl⟩

theorem scans_functionDeclaration (hd : d.Idle) :
    Scans encoding ⟨d, blocks⟩ (functionDeclaration e)
      (LeavesIdle (Stat.faults encoding (takesRestIn blocks)) blocks) := by
  refine (scans_function (Or.inl hd)).pass fun _ => ?_
  refine scans_declaredName.bind ?_
  rintro name fs u ⟨hname, rfl, rfl⟩
  refine (scans_functionBody he).next fun found => scans_pure ?_
  exact ⟨by simp [Stat.faults, optionFaults, hname], .no, .no, rfl⟩

theorem scans_localFunction (hd : d.Idle) :
    Scans encoding ⟨d, blocks⟩ (localFunction e)
      (LeavesIdle (Stat.faults encoding (takesRestIn blocks)) blocks) := by
  refine (scans_local hd).pass fun _ => ?_
  refine (scans_function (Or.inr rfl)).pass fun _ => ?_
  refine (scans_functionName (Or.inl rfl)).need.pass fun name => ?_
  refine (scans_functionBody he).next fun found => scans_pure ?_
  exact ⟨by simp [Stat.faults, optionFaults, Expr.faults], .no, .no, rfl⟩

theorem scans_locals (hd : d.Idle) :
    Scans encoding ⟨d, blocks⟩ (locals e)
      (LeavesIdle (Stat.faults encoding (takesRestIn blocks)) blocks) := by
  refine (scans_local hd).pass fun _ => ?_
  refine (scans_localVar (Or.inl rfl)).next fun first => ?_
  refine (scans_nameComma.pass fun _ => scans_localVar (Or.inr rfl)).many.next fun more => ?_
  have hvalues : Scans encoding ⟨.afterName, blocks⟩
      (LuaBundle.Lua.Parser.optional do
        let _ ← sign "="
        failHere (Parser.need (separated (e.expr 1))))
      (LeavesIdle (fun values => exprFaults encoding (takesRestIn blocks) (values.getD []))
        blocks) := by
    apply Scans.optional
    · refine (scans_idle .afterName (by decide)).pass fun _ =>
        (scans_values he).need.failHere.mono ?_
      rintro values fs u ⟨rfl, rfl⟩
      exact ⟨rfl, .no, .no, rfl⟩
    · exact ⟨rfl, .afterName, .afterName, rfl⟩
  refine hvalues.idle fun values d' hd' => scans_pure ?_
  exact ⟨by simp [Stat.faults], d', hd', rfl⟩

theorem scans_statement (hd : d.Idle) :
    Scans encoding ⟨d, blocks⟩ (statement e)
      (LeavesIdle (Stat.faults encoding (takesRestIn blocks)) blocks) := by
  refine (scans_callOrAssign he hd).orElse ?_
  refine (scans_doBlock he hd).orElse ?_
  refine (scans_whileLoop he hd).orElse ?_
  refine (scans_repeatLoop he hd).orElse ?_
  refine (scans_choice he hd).orElse ?_
  refine (scans_forRange he hd).orElse ?_
  refine (scans_forEach he hd).orElse ?_
  refine (scans_functionDeclaration he hd).orElse ?_
  refine (scans_localFunction he hd).orElse ?_
  refine (scans_locals he hd).orElse (Scans.orElse ?goto ?label)
  case goto =>
    refine (scans_idle hd (by decide)).pass fun _ => ?_
    exact (scans_used .no).need.pass fun n => scans_pure ⟨rfl, .no, .no, rfl⟩
  case label =>
    refine (scans_idle hd (by decide)).pass fun _ => ?_
    refine (scans_used .no).need.pass fun n => ?_
    exact (scans_plain (by decide)).need.pass fun _ => scans_pure ⟨rfl, .no, .no, rfl⟩

theorem scans_lastStatement (hd : d.Idle) :
    Scans encoding ⟨d, blocks⟩ (lastStatement e)
      (LeavesIdle (Stat.faults encoding (takesRestIn blocks)) blocks) := by
  apply Scans.orElse
  · refine (scans_idle hd (by decide)).pass fun _ => ?_
    exact (scans_expressions he).next fun values =>
      scans_pure ⟨List.append_nil _, .no, .no, rfl⟩
  · exact (scans_idle hd (by decide)).pass fun _ => scans_pure ⟨rfl, .no, .no, rfl⟩

omit he in
theorem Scans.terminated {s : Standing} {p : Parser Stat} {faults : Stat → List Fault}
    (hp : Scans encoding s p (LeavesIdle faults blocks)) :
    Scans encoding s (terminated p) (LeavesIdle faults blocks) := by
  refine hp.idle fun s d hd => ?_
  have hsemicolon : Scans encoding ⟨d, blocks⟩ (LuaBundle.Lua.Parser.optional (sign ";"))
      (LeavesIdle (fun _ => []) blocks) := by
    apply Scans.optional
    · apply (scans_idle hd (by decide)).mono
      rintro t fs u ⟨rfl, rfl⟩
      exact ⟨rfl, .no, .no, rfl⟩
    · exact ⟨rfl, d, hd, rfl⟩
  refine hsemicolon.idle fun _ d' hd' => scans_pure ?_
  exact ⟨List.append_nil _, d', hd', rfl⟩

theorem scans_block (hd : d.Idle) :
    Scans encoding ⟨d, blocks⟩ (block e)
      (LeavesIdle (blockFaults encoding (takesRestIn blocks)) blocks) := by
  have hround : ∀ s : Standing, (∃ d : Declaring, d.Idle ∧ s = ⟨d, blocks⟩) →
      Scans encoding s (terminated (statement e)) fun s fs u =>
        fs = s.faults encoding (takesRestIn blocks) ∧
          ∃ d : Declaring, d.Idle ∧ u = ⟨d, blocks⟩ := by
    rintro s ⟨d, hd, rfl⟩
    exact (scans_statement he hd).terminated
  have hbody : Scans encoding ⟨d, blocks⟩ (many (terminated (statement e)))
      (LeavesIdle (blockFaults encoding (takesRestIn blocks)) blocks) := by
    apply (scans_many hround ⟨d, hd, rfl⟩).mono
    rintro body fs u ⟨rfl, hu⟩
    exact ⟨(blockFaults_eq encoding _ body).symm, hu⟩
  refine hbody.idle fun body d' hd' => ?_
  have hlast : Scans encoding ⟨d', blocks⟩
      (LuaBundle.Lua.Parser.optional (terminated (lastStatement e)))
      (LeavesIdle (fun last => blockFaults encoding (takesRestIn blocks) last.toList) blocks) := by
    apply Scans.optional
    · apply (scans_lastStatement he hd').terminated.mono
      rintro s fs u ⟨rfl, hu⟩
      exact ⟨(List.append_nil _).symm, hu⟩
    · exact ⟨rfl, d', hd', rfl⟩
  refine hlast.idle fun last d'' hd'' => scans_pure ?_
  exact ⟨by simp [blockFaults_eq], d'', hd'', rfl⟩

end Statements

/-!
## Sources
-/

theorem scans_entry (encoding : Encoding) (depth : Nat) : (entry depth).Scans encoding := by
  induction depth with
  | zero => exact ⟨fun _ _ => scans_fail, fun _ _ _ => scans_fail⟩
  | succ depth ih =>
      constructor
      · exact fun precedence _ => scans_expression ih precedence
      · exact fun _ _ hd => scans_block ih hd

theorem kind_of_cutLexeme {text : List Char} {kind : Lexeme.Kind} {cut : Cut}
    (h : cutLexeme text = some (kind, cut)) : kind ≠ .finish := by
  cases firstLexeme_of_cutLexeme h with
  | comment _ hcomment =>
      rcases cutComment_kind hcomment with rfl | rfl <;> simp
  | word => split <;> simp
  | _ => simp

theorem finish_last {fuel line : Nat} {text : List Char} {lexemes : List Lexeme}
    (h : lexFrom fuel line text = .ok lexemes) (adjoins : Bool) {t : Token} {rest : List Token}
    (hsuffix : t :: rest <:+ tokensFrom adjoins lexemes) (hkind : t.kind = .finish) :
    rest = [] := by
  have hlexed := lexedAs_of_lexFrom h
  clear h
  induction hlexed generalizing adjoins with
  | finish =>
      have hlength := hsuffix.length_le
      simpa [tokensFrom, Lexeme.Kind.isTrivia] using hlength
  | cut hcut _ ih =>
      rw [tokensFrom] at hsuffix
      split at hsuffix
      · exact ih false hsuffix
      · rcases List.suffix_cons_iff.mp hsuffix with heq | hsuffix
        · cases heq
          exact absurd hkind (kind_of_cutLexeme hcut)
        · exact ih true hsuffix

theorem finish_of_need {ts rest : List Token} {t : Token}
    (h : Parser.need (kind .finish) ts = .found t rest) :
    ts = t :: rest ∧ t.kind = .finish := by
  cases ts with
  | nil => cases h
  | cons u more =>
      simp only [Parser.need, kind, tokenIf] at h
      by_cases hkind : u.kind = .finish
      · simp only [hkind, beq_self_eq_true, if_true] at h
        cases h
        exact ⟨rfl, hkind⟩
      · simp [hkind] at h

/-- A source that the grammar accepts is a block and the end of the source. -/
theorem found_of_program {source : List Char} {lexemes : List Lexeme} {body : List Stat}
    (hlex : lex source = .ok lexemes) (h : program (tokens lexemes) = .ok body) :
    ∃ front t, tokens lexemes = front ++ [t] ∧ t.kind = .finish ∧
      (entry ((tokens lexemes).length + 1)).block (tokens lexemes) = .found body [t] := by
  unfold program at h
  simp only [run_bind] at h
  cases hblock : (entry ((tokens lexemes).length + 1)).block (tokens lexemes) with
  | absent => simp [hblock] at h
  | failed line => simp [hblock] at h
  | found found ts =>
      cases hfinish : Parser.need (kind .finish) ts with
      | absent => simp [hblock, hfinish] at h
      | failed line => simp [hblock, hfinish] at h
      | found t rest =>
          simp only [hblock, hfinish] at h
          have hbody : found = body := Except.ok.inj h
          rcases finish_of_need hfinish with ⟨rfl, hkind⟩
          rcases ((scans_entry .utf8 _).block .no [] .no).run hblock with ⟨_, _, _, hsuffix, _⟩
          have hlast : rest = [] := finish_last hlex false hsuffix hkind
          subst hlast
          rcases hsuffix with ⟨front, hfront⟩
          exact ⟨front, t, hfront.symm, hkind, by rw [hbody]⟩

theorem program_faults {encoding : Encoding} {source : List Char} {lexemes : List Lexeme}
    {body : List Stat} (hlex : lex source = .ok lexemes)
    (h : program (tokens lexemes) = .ok body) :
    faultsFrom encoding {} (tokens lexemes) = blockFaults encoding true body := by
  rcases found_of_program hlex h with ⟨front, t, _, hkind, hblock⟩
  rcases ((scans_entry encoding _).block .no [] .no).run hblock with
    ⟨fs, u, ⟨rfl, _⟩, _, hscan⟩
  have hnone : faultsFrom encoding u [t] = [] := by
    simp [faultsFrom, Token.fault?, hkind]
  rw [hnone, List.append_nil] at hscan
  exact hscan

/-- What is reported of a source that the grammar accepts.  There is a report just when some
token is at fault, and it is about the first one. -/
theorem parse_firstFault {encoding : Encoding} {source : List Char} {lexemes : List Lexeme}
    {body : List Stat} (hlex : lex source = .ok lexemes)
    (hprogram : program (tokens lexemes) = .ok body) :
    ((∃ e, parse encoding source = .error e) ↔
      ∃ front t back fault, tokens lexemes = front ++ t :: back ∧
        t.fault? encoding (standing front) = some fault) ∧
    ∀ e, parse encoding source = .error e →
      ∃ front t back fault, tokens lexemes = front ++ t :: back ∧
        (∀ before u after, front = before ++ u :: after →
          u.fault? encoding (standing before) = none) ∧
        t.fault? encoding (standing front) = some fault ∧ e = .faulty fault := by
  have hfaults : faultsFrom encoding {} (tokens lexemes) = blockFaults encoding true body :=
    program_faults hlex hprogram
  cases hfound : blockFaults encoding true body with
  | nil =>
      have hok : ∃ c, parse encoding source = .ok c := by
        rcases parse_of_program hlex hprogram hfound with ⟨c, hc, _⟩
        exact ⟨c, hc⟩
      rcases hok with ⟨c, hc⟩
      rw [hfound, faultsFrom_eq_nil] at hfaults
      constructor
      · constructor
        · rintro ⟨e, he⟩
          rw [hc] at he
          cases he
        · rintro ⟨front, t, back, fault, heq, hfault⟩
          have hnone := hfaults front t back heq
          rw [standing, hnone] at hfault
          cases hfault
      · intro e he
        rw [hc] at he
        cases he
  | cons fault more =>
      have herror : parse encoding source = .error (.faulty fault) := by
        simp only [parse, hlex, bodyOf, hprogram, hfound]
      rw [hfound] at hfaults
      rcases faultsFrom_eq_cons hfaults with ⟨front, t, back, heq, hfront, hfault⟩
      constructor
      · constructor
        · rintro ⟨e, he⟩
          exact ⟨front, t, back, fault, heq, hfault⟩
        · intro _
          exact ⟨.faulty fault, herror⟩
      · intro e he
        rw [herror] at he
        cases he
        refine ⟨front, t, back, fault, heq, ?_, hfault, rfl⟩
        intro before u after hsplit
        exact faultsFrom_eq_nil.mp hfront before u after hsplit

def mixedFaults : List Char :=
  "local a <final> = function(...)\n  return function() return ... , '\\q' end\nend\n".toList

theorem mixedFaults_reported :
    ∃ lexemes body, lex mixedFaults = .ok lexemes ∧ program (tokens lexemes) = .ok body ∧
      ((∃ e, parse .utf8 mixedFaults = .error e) ↔
        ∃ front t back fault, tokens lexemes = front ++ t :: back ∧
          t.fault? .utf8 (standing front) = some fault) ∧
      ∀ e, parse .utf8 mixedFaults = .error e →
        ∃ front t back fault, tokens lexemes = front ++ t :: back ∧
          (∀ before u after, front = before ++ u :: after →
            u.fault? .utf8 (standing before) = none) ∧
          t.fault? .utf8 (standing front) = some fault ∧ e = .faulty fault := by
  have hread : ((lex mixedFaults).toOption.any fun lexemes =>
      (program (tokens lexemes)).toOption.any fun _ => true) = true := by
    decide +kernel
  rcases exists_ok_of_any hread with ⟨lexemes, hlex, hrest⟩
  rcases exists_ok_of_any hrest with ⟨body, hprogram, _⟩
  exact ⟨lexemes, body, hlex, hprogram, parse_firstFault hlex hprogram⟩

end Lua
end LuaBundle
