import LuaBundle.Proofs.Tree.Marks

/-!
# What is in scope at a part of a tree

A tree is taken apart from the outside in: every step leads from a part to one that stands
directly in it, and may bring names into scope on the way.  A part that ends a scope brings
nothing in, so what is in scope somewhere is what the steps from the root to there brought in.
The marks of a tree agree with this everywhere.
-/

namespace LuaBundle
namespace Lua

/-!
## Parts

A part holds another one directly, in the scope of names that it declares; it contains the
parts that are reached in any number of such steps.
-/

inductive Part where
  | expr (e : Expr)
  | args (arguments : Args)
  | field (f : Field)
  | stat (s : Stat)
  | clause (c : Clause)
  | block (body : List Stat)

/-- The names that the statements of a block declare for what follows in the block, the last
declared first. -/
def declaredBy : List Stat → List String
  | [] => []
  | s :: rest => declaredBy rest ++ s.added

/-- A part stands directly in another one, which brings names into scope there:

* a function brings in its parameters, and a method `self`; a local function also brings in
  its own name;
* a loop brings its variables into its body only, and a `repeat` brings into its condition
  what its body declares;
* a block brings into each of its statements what the statements before declare, so a local
  statement is not in scope in its own values. -/
inductive Part.Holds : Part → List String → Part → Prop where
  | parameter {parameters body n} (h : Expr.name n ∈ parameters) :
      Holds (.expr (.function parameters body)) (parameterNames parameters) (.expr (.name n))
  | functionBody {parameters body} :
      Holds (.expr (.function parameters body)) (parameterNames parameters) (.block body)
  | tableField {fields f} (h : f ∈ fields) : Holds (.expr (.table fields)) [] (.field f)
  | left {op left right} : Holds (.expr (.binary op left right)) [] (.expr left)
  | right {op left right} : Holds (.expr (.binary op left right)) [] (.expr right)
  | operand {op operand} : Holds (.expr (.unary op operand)) [] (.expr operand)
  | memberBase {base indexer n} : Holds (.expr (.member base indexer n)) [] (.expr base)
  | indexBase {base key} : Holds (.expr (.index base key)) [] (.expr base)
  | indexKey {base key} : Holds (.expr (.index base key)) [] (.expr key)
  | callBase {base arguments inParens line} :
      Holds (.expr (.call base arguments inParens line)) [] (.expr base)
  | callArgs {base arguments inParens line} :
      Holds (.expr (.call base arguments inParens line)) [] (.args arguments)
  | argument {arguments e} (h : e ∈ arguments) : Holds (.args (.list arguments)) [] (.expr e)
  | argumentField {fields f} (h : f ∈ fields) : Holds (.args (.table fields)) [] (.field f)
  | key {key value} : Holds (.field (.keyed key value)) [] (.expr key)
  | keyedValue {key value} : Holds (.field (.keyed key value)) [] (.expr value)
  | namedValue {n value} : Holds (.field (.named n value)) [] (.expr value)
  | positionalValue {value} : Holds (.field (.positional value)) [] (.expr value)
  | returned {values e} (h : e ∈ values) : Holds (.stat (.ret values)) [] (.expr e)
  | clause {clauses c} (h : c ∈ clauses) : Holds (.stat (.choice clauses)) [] (.clause c)
  | whileCondition {condition body} :
      Holds (.stat (.whileLoop condition body)) [] (.expr condition)
  | whileBody {condition body} : Holds (.stat (.whileLoop condition body)) [] (.block body)
  | inner {body} : Holds (.stat (.block body)) [] (.block body)
  | repeatBody {body condition} : Holds (.stat (.repeatLoop body condition)) [] (.block body)
  | repeatCondition {body condition} :
      Holds (.stat (.repeatLoop body condition)) (declaredBy body) (.expr condition)
  | localValue {vars values e} (h : e ∈ values) : Holds (.stat (.locals vars values)) [] (.expr e)
  | target {targets values e} (h : e ∈ targets) :
      Holds (.stat (.assign targets values)) [] (.expr e)
  | assigned {targets values e} (h : e ∈ values) :
      Holds (.stat (.assign targets values)) [] (.expr e)
  | called {e} : Holds (.stat (.call e)) [] (.expr e)
  | declaredName {isLocal e parameters body} :
      Holds (.stat (.function isLocal (some e) parameters body))
        (if isLocal then localFunctionNames (some e) else []) (.expr e)
  | declaredParameter {isLocal name parameters body n} (h : Expr.name n ∈ parameters) :
      Holds (.stat (.function isLocal name parameters body))
        (parameterNames parameters ++ receiver name
          ++ if isLocal then localFunctionNames name else [])
        (.expr (.name n))
  | declaredBody {isLocal name parameters body} :
      Holds (.stat (.function isLocal name parameters body))
        (parameterNames parameters ++ receiver name
          ++ if isLocal then localFunctionNames name else [])
        (.block body)
  | rangeFirst {counter first last step body} :
      Holds (.stat (.forRange counter first last step body)) [] (.expr first)
  | rangeLast {counter first last step body} :
      Holds (.stat (.forRange counter first last step body)) [] (.expr last)
  | rangeStep {counter first last step body} :
      Holds (.stat (.forRange counter first last (some step) body)) [] (.expr step)
  | rangeBody {counter first last step body} :
      Holds (.stat (.forRange counter first last step body)) [counter.text] (.block body)
  | iterator {vars iterators body e} (h : e ∈ iterators) :
      Holds (.stat (.forEach vars iterators body)) [] (.expr e)
  | eachBody {vars iterators body} :
      Holds (.stat (.forEach vars iterators body)) (vars.map Name.text) (.block body)
  | firstCondition {condition body} : Holds (.clause (.first condition body)) [] (.expr condition)
  | firstBody {condition body} : Holds (.clause (.first condition body)) [] (.block body)
  | nextCondition {condition body} : Holds (.clause (.next condition body)) [] (.expr condition)
  | nextBody {condition body} : Holds (.clause (.next condition body)) [] (.block body)
  | otherwiseBody {body} : Holds (.clause (.otherwise body)) [] (.block body)
  | statement {before s after} :
      Holds (.block (before ++ s :: after)) (declaredBy before) (.stat s)

/-- A part stands somewhere in another one, and the names brought into scope on the way to
it, the innermost first. -/
inductive Part.Within (whole : Part) : List String → Part → Prop where
  | whole : whole.Within [] whole
  | step {names part more inside} (outer : whole.Within names part)
      (inner : part.Holds more inside) : whole.Within (more ++ names) inside

def Part.resolve (scope : List String) : Part → Part
  | .expr e => .expr (e.resolve scope)
  | .args arguments => .args (arguments.resolve scope)
  | .field f => .field (f.resolve scope)
  | .stat s => .stat (s.resolve scope).1
  | .clause c => .clause (c.resolve scope)
  | .block body => .block (resolveBlock scope body).1

/-!
## Lists of marked parts
-/

theorem mem_resolveExprs {scope : List String} {es : List Expr} {e : Expr}
    (h : e ∈ resolveExprs scope es) : ∃ raw : Expr, e = raw.resolve scope := by
  induction es with
  | nil => cases h
  | cons first rest ih =>
      cases h with
      | head => exact ⟨first, rfl⟩
      | tail _ h => exact ih h

theorem mem_resolveFields {scope : List String} {fs : List Field} {f : Field}
    (h : f ∈ resolveFields scope fs) : ∃ raw : Field, f = raw.resolve scope := by
  induction fs with
  | nil => cases h
  | cons first rest ih =>
      cases h with
      | head => exact ⟨first, rfl⟩
      | tail _ h => exact ih h

theorem mem_resolveClauses {scope : List String} {clauses : List Clause} {c : Clause}
    (h : c ∈ resolveClauses scope clauses) : ∃ raw : Clause, c = raw.resolve scope := by
  induction clauses with
  | nil => cases h
  | cons first rest ih =>
      cases h with
      | head => exact ⟨first, rfl⟩
      | tail _ h => exact ih h

theorem added_resolve (scope : List String) (s : Stat) : (s.resolve scope).1.added = s.added := by
  cases s with
  | locals vars values => simp [Stat.resolve, Stat.added, Name.declared]
  | function isLocal name parameters body =>
      cases name with
      | none => rfl
      | some e => cases e <;> rfl
  | _ => rfl

theorem resolveBlock_scope (scope : List String) (body : List Stat) :
    (resolveBlock scope body).2 = declaredBy body ++ scope := by
  induction body generalizing scope with
  | nil => rfl
  | cons s rest ih =>
      have hrest : (resolveBlock scope (s :: rest)).2 =
          (resolveBlock (s.resolve scope).2 rest).2 := rfl
      rw [hrest, ih, resolve_scope, declaredBy, List.append_assoc]

theorem declaredBy_resolve (scope : List String) (body : List Stat) :
    declaredBy (resolveBlock scope body).1 = declaredBy body := by
  induction body generalizing scope with
  | nil => rfl
  | cons s rest ih =>
      have hrest : (resolveBlock scope (s :: rest)).1 =
          (s.resolve scope).1 :: (resolveBlock (s.resolve scope).2 rest).1 := rfl
      rw [hrest, declaredBy, declaredBy, ih, added_resolve]

/-- A statement of a marked block is marked in the scope that the statements before leave. -/
theorem mem_resolveBlock {scope : List String} {raw before after : List Stat} {s : Stat}
    (h : (resolveBlock scope raw).1 = before ++ s :: after) :
    ∃ original : Stat, s = (original.resolve (declaredBy before ++ scope)).1 := by
  induction before generalizing scope raw with
  | nil =>
      cases raw with
      | nil => cases h
      | cons first rest =>
          have hfirst : (first.resolve scope).1 = s := (List.cons.inj h).1
          exact ⟨first, hfirst.symm⟩
  | cons head before ih =>
      cases raw with
      | nil => cases h
      | cons first rest =>
          have hhead : (first.resolve scope).1 = head := (List.cons.inj h).1
          have hrest : (resolveBlock (first.resolve scope).2 rest).1 = before ++ s :: after :=
            (List.cons.inj h).2
          rcases ih hrest with ⟨original, horiginal⟩
          rw [resolve_scope, ← added_resolve scope first, hhead, ← List.append_assoc] at horiginal
          exact ⟨original, horiginal⟩

/-!
## Marked functions
-/

theorem parameterNames_declared (parameters : List Expr) :
    parameterNames (parameters.map Expr.declared) = parameterNames parameters := by
  induction parameters with
  | nil => rfl
  | cons e rest ih =>
      unfold parameterNames at ih
      cases e <;> simp [parameterNames, Expr.declared, Name.declared, ih]

theorem receiver_resolve (scope : List String) (name : Option Expr) :
    receiver (resolveOption scope name) = receiver name := by
  cases name with
  | none => rfl
  | some e =>
      cases e with
      | member base indexer n => cases indexer <;> rfl
      | _ => rfl

theorem localFunctionNames_resolve (scope : List String) (name : Option Expr) :
    localFunctionNames (resolveOption scope name) = localFunctionNames name := by
  cases name with
  | none => rfl
  | some e => cases e <;> rfl

/-- A declared parameter is marked as a name is marked where it is in scope. -/
theorem parameter_resolve {scope : List String} {parameters : List Expr} {n : Name}
    (h : Expr.name n ∈ parameters.map Expr.declared) :
    n = n.resolve (parameterNames parameters ++ scope) := by
  rcases List.mem_map.mp h with ⟨e, he, heq⟩
  cases e with
  | name m =>
      have hdeclared : m.declared = n := Expr.name.inj heq
      have hmem : m.text ∈ parameterNames parameters ++ scope := by
        apply List.mem_append_left
        apply List.mem_filterMap.mpr
        exact ⟨.name m, he, rfl⟩
      rw [← hdeclared, Name.resolve, Name.declared]
      simp [hmem]
  | _ => cases heq

/-!
## Marks and scopes
-/

theorem expr_holds {scope names : List String} {e : Expr} {part : Part}
    (h : Part.Holds (.expr (e.resolve scope)) names part) :
    ∃ raw : Part, part = raw.resolve (names ++ scope) := by
  cases e with
  | function parameters body =>
      rw [Expr.resolve] at h
      cases h with
      | @parameter _ _ n hn =>
          rw [parameterNames_declared]
          exact ⟨.expr (.name n), congrArg (fun n => Part.expr (.name n)) (parameter_resolve hn)⟩
      | functionBody =>
          rw [parameterNames_declared]
          have hscope : functionScope scope none parameters = parameterNames parameters ++ scope :=
            congrArg (· ++ scope) (List.append_nil _)
          rw [hscope]
          exact ⟨.block body, rfl⟩
  | table fields =>
      rw [Expr.resolve] at h
      cases h with
      | tableField hf =>
          rcases mem_resolveFields hf with ⟨raw, rfl⟩
          exact ⟨.field raw, rfl⟩
  | binary op left right =>
      rw [Expr.resolve] at h
      cases h with
      | left => exact ⟨.expr left, rfl⟩
      | right => exact ⟨.expr right, rfl⟩
  | unary op operand =>
      rw [Expr.resolve] at h
      cases h with
      | operand => exact ⟨.expr operand, rfl⟩
  | member base indexer n =>
      rw [Expr.resolve] at h
      cases h with
      | memberBase => exact ⟨.expr base, rfl⟩
  | index base key =>
      rw [Expr.resolve] at h
      cases h with
      | indexBase => exact ⟨.expr base, rfl⟩
      | indexKey => exact ⟨.expr key, rfl⟩
  | call base arguments inParens line =>
      rw [Expr.resolve] at h
      cases h with
      | callBase => exact ⟨.expr base, rfl⟩
      | callArgs => exact ⟨.args arguments, rfl⟩
  | _ =>
      rw [Expr.resolve] at h
      cases h

theorem args_holds {scope names : List String} {arguments : Args} {part : Part}
    (h : Part.Holds (.args (arguments.resolve scope)) names part) :
    ∃ raw : Part, part = raw.resolve (names ++ scope) := by
  cases arguments with
  | list es =>
      rw [Args.resolve] at h
      cases h with
      | argument he =>
          rcases mem_resolveExprs he with ⟨raw, rfl⟩
          exact ⟨.expr raw, rfl⟩
  | table fields =>
      rw [Args.resolve] at h
      cases h with
      | argumentField hf =>
          rcases mem_resolveFields hf with ⟨raw, rfl⟩
          exact ⟨.field raw, rfl⟩
  | string literal =>
      rw [Args.resolve] at h
      cases h

theorem field_holds {scope names : List String} {f : Field} {part : Part}
    (h : Part.Holds (.field (f.resolve scope)) names part) :
    ∃ raw : Part, part = raw.resolve (names ++ scope) := by
  cases f with
  | keyed key value =>
      rw [Field.resolve] at h
      cases h with
      | key => exact ⟨.expr key, rfl⟩
      | keyedValue => exact ⟨.expr value, rfl⟩
  | named n value =>
      rw [Field.resolve] at h
      cases h with
      | namedValue => exact ⟨.expr value, rfl⟩
  | positional value =>
      rw [Field.resolve] at h
      cases h with
      | positionalValue => exact ⟨.expr value, rfl⟩

theorem clause_holds {scope names : List String} {c : Clause} {part : Part}
    (h : Part.Holds (.clause (c.resolve scope)) names part) :
    ∃ raw : Part, part = raw.resolve (names ++ scope) := by
  cases c with
  | first condition body =>
      rw [Clause.resolve] at h
      cases h with
      | firstCondition => exact ⟨.expr condition, rfl⟩
      | firstBody => exact ⟨.block body, rfl⟩
  | next condition body =>
      rw [Clause.resolve] at h
      cases h with
      | nextCondition => exact ⟨.expr condition, rfl⟩
      | nextBody => exact ⟨.block body, rfl⟩
  | otherwise body =>
      rw [Clause.resolve] at h
      cases h with
      | otherwiseBody => exact ⟨.block body, rfl⟩

/-- A declared function: its name is marked where the function is in scope, if it is local,
and its body where its parameters are in scope, too. -/
theorem function_holds {scope names : List String} {isLocal : Bool} {name : Option Expr}
    {parameters : List Expr} {body : List Stat} {part : Part}
    (h : Part.Holds (.stat ((Stat.function isLocal name parameters body).resolve scope).1)
      names part) : ∃ raw : Part, part = raw.resolve (names ++ scope) := by
  have houter : (if isLocal then localFunctionNames name ++ scope else scope) =
      (if isLocal then localFunctionNames name else []) ++ scope := by
    cases isLocal <;> rfl
  rw [Stat.resolve, houter] at h
  generalize hown : (if isLocal then localFunctionNames name else []) = own at h
  generalize hresolved : resolveOption (own ++ scope) name = resolved at h
  have hreceiver : receiver resolved = receiver name := by
    rw [← hresolved, receiver_resolve]
  have hname : localFunctionNames resolved = localFunctionNames name := by
    rw [← hresolved, localFunctionNames_resolve]
  cases h with
  | @declaredName _ e =>
      rw [hname, hown]
      cases name with
      | none => cases hresolved
      | some raw => exact ⟨.expr raw, congrArg Part.expr (Option.some.inj hresolved).symm⟩
  | @declaredParameter _ _ _ _ n hn =>
      rw [hname, hown, hreceiver, parameterNames_declared, List.append_assoc, List.append_assoc]
      exact ⟨.expr (.name n), congrArg (fun n => Part.expr (.name n)) (parameter_resolve hn)⟩
  | declaredBody =>
      rw [hname, hown, hreceiver, parameterNames_declared, List.append_assoc]
      exact ⟨.block body, rfl⟩

theorem stat_holds {scope names : List String} {s : Stat} {part : Part}
    (h : Part.Holds (.stat (s.resolve scope).1) names part) :
    ∃ raw : Part, part = raw.resolve (names ++ scope) := by
  cases s with
  | ret values =>
      rw [Stat.resolve] at h
      cases h with
      | returned he =>
          rcases mem_resolveExprs he with ⟨raw, rfl⟩
          exact ⟨.expr raw, rfl⟩
  | choice clauses =>
      rw [Stat.resolve] at h
      cases h with
      | clause hc =>
          rcases mem_resolveClauses hc with ⟨raw, rfl⟩
          exact ⟨.clause raw, rfl⟩
  | whileLoop condition body =>
      rw [Stat.resolve] at h
      cases h with
      | whileCondition => exact ⟨.expr condition, rfl⟩
      | whileBody => exact ⟨.block body, rfl⟩
  | block body =>
      rw [Stat.resolve] at h
      cases h with
      | inner => exact ⟨.block body, rfl⟩
  | repeatLoop body condition =>
      rw [Stat.resolve] at h
      cases h with
      | repeatBody => exact ⟨.block body, rfl⟩
      | repeatCondition =>
          rw [resolveBlock_scope, declaredBy_resolve]
          exact ⟨.expr condition, rfl⟩
  | locals vars values =>
      rw [Stat.resolve] at h
      cases h with
      | localValue he =>
          rcases mem_resolveExprs he with ⟨raw, rfl⟩
          exact ⟨.expr raw, rfl⟩
  | assign targets values =>
      rw [Stat.resolve] at h
      cases h with
      | target he =>
          rcases mem_resolveExprs he with ⟨raw, rfl⟩
          exact ⟨.expr raw, rfl⟩
      | assigned he =>
          rcases mem_resolveExprs he with ⟨raw, rfl⟩
          exact ⟨.expr raw, rfl⟩
  | call expression =>
      rw [Stat.resolve] at h
      cases h with
      | called => exact ⟨.expr expression, rfl⟩
  | function isLocal name parameters body => exact function_holds h
  | forRange counter first last step body =>
      cases step with
      | none =>
          rw [Stat.resolve] at h
          cases h with
          | rangeFirst => exact ⟨.expr first, rfl⟩
          | rangeLast => exact ⟨.expr last, rfl⟩
          | rangeBody => exact ⟨.block body, rfl⟩
      | some step =>
          rw [Stat.resolve] at h
          cases h with
          | rangeFirst => exact ⟨.expr first, rfl⟩
          | rangeLast => exact ⟨.expr last, rfl⟩
          | rangeStep => exact ⟨.expr step, rfl⟩
          | rangeBody => exact ⟨.block body, rfl⟩
  | forEach vars iterators body =>
      rw [Stat.resolve] at h
      cases h with
      | iterator he =>
          rcases mem_resolveExprs he with ⟨raw, rfl⟩
          exact ⟨.expr raw, rfl⟩
      | eachBody =>
          have hvars : (vars.map Name.declared).map Name.text = vars.map Name.text := by
            rw [List.map_map]
            rfl
          rw [hvars]
          exact ⟨.block body, rfl⟩
  | _ =>
      rw [Stat.resolve] at h
      cases h

/-- What stands directly in a marked part is marked in the scope with the names that the part
brings in there. -/
theorem Part.Holds.resolved {scope names : List String} {whole part : Part}
    (h : (whole.resolve scope).Holds names part) :
    ∃ raw : Part, part = raw.resolve (names ++ scope) := by
  cases whole with
  | expr e => exact expr_holds h
  | args arguments => exact args_holds h
  | field f => exact field_holds h
  | stat s => exact stat_holds h
  | clause c => exact clause_holds h
  | block body =>
      generalize hmarked : (resolveBlock scope body).1 = marked at h
      rw [Part.resolve, hmarked] at h
      cases h with
      | statement =>
          rcases mem_resolveBlock hmarked with ⟨original, rfl⟩
          exact ⟨.stat original, rfl⟩

/-- Every part of a marked tree is marked in the scope with all names brought in on the way. -/
theorem Part.Within.resolved {scope names : List String} {whole part : Part}
    (h : (whole.resolve scope).Within names part) :
    ∃ raw : Part, part = raw.resolve (names ++ scope) := by
  induction h with
  | whole => exact ⟨whole, rfl⟩
  | step outer inner ih =>
      rcases ih with ⟨raw, rfl⟩
      rw [List.append_assoc]
      exact inner.resolved

/-- A name in a marked tree is local when it was brought into scope on the way to it. -/
theorem isLocal_iff_of_within {names : List String} {body : List Stat} {n : Name}
    (h : (Part.block (resolveBlock [] body).1).Within names (.expr (.name n))) :
    n.isLocal = true ↔ n.text ∈ names := by
  have hmarked : ((Part.block body).resolve []).Within names (.expr (.name n)) := h
  rcases hmarked.resolved with ⟨raw, hraw⟩
  rw [List.append_nil] at hraw
  cases raw with
  | expr e =>
      cases e with
      | name m =>
          have hn : n = m.resolve names := Expr.name.inj (Part.expr.inj hraw)
          rw [hn, Name.resolve]
          exact List.contains_iff_mem
      | _ => cases hraw
  | _ => cases hraw

end Lua
end LuaBundle
