import LuaBundle.Proofs.Tree.Elements

/-!
# Renamed trees

A tree may have all its names mapped, and a tree without its names is the one that has the
same name everywhere.  A tree is determined by what is left without names and by the row of
its names.
-/

namespace LuaBundle
namespace Lua

def LocalVar.renamed (f : Name → Name) (v : LocalVar) : LocalVar :=
  { v with name := f v.name }

mutual

def Expr.renamed (f : Name → Name) : Expr → Expr
  | .name n => .name (f n)
  | .string literal => .string literal
  | .number numeral line => .number numeral line
  | .boolean value => .boolean value
  | .nil => .nil
  | .vararg inParens line => .vararg inParens line
  | .function parameters body => .function (renamedExprs f parameters) (renamedBlock f body)
  | .table fields => .table (renamedFields f fields)
  | .binary op left right => .binary op (left.renamed f) (right.renamed f)
  | .unary op operand => .unary op (operand.renamed f)
  | .member base indexer n => .member (base.renamed f) indexer (f n)
  | .index base key => .index (base.renamed f) (key.renamed f)
  | .call base arguments inParens line =>
      .call (base.renamed f) (arguments.renamed f) inParens line

def Args.renamed (f : Name → Name) : Args → Args
  | .list arguments => .list (renamedExprs f arguments)
  | .table fields => .table (renamedFields f fields)
  | .string literal => .string literal

def Field.renamed (f : Name → Name) : Field → Field
  | .keyed key value => .keyed (key.renamed f) (value.renamed f)
  | .named n value => .named (f n) (value.renamed f)
  | .positional value => .positional (value.renamed f)

def Stat.renamed (f : Name → Name) : Stat → Stat
  | .label n => .label (f n)
  | .goto n => .goto (f n)
  | .leave => .leave
  | .ret values => .ret (renamedExprs f values)
  | .choice clauses => .choice (renamedClauses f clauses)
  | .whileLoop condition body => .whileLoop (condition.renamed f) (renamedBlock f body)
  | .block body => .block (renamedBlock f body)
  | .repeatLoop body condition => .repeatLoop (renamedBlock f body) (condition.renamed f)
  | .locals vars values => .locals (vars.map (LocalVar.renamed f)) (renamedExprs f values)
  | .assign targets values => .assign (renamedExprs f targets) (renamedExprs f values)
  | .call e => .call (e.renamed f)
  | .function isLocal name parameters body =>
      .function isLocal (renamedOption f name) (renamedExprs f parameters) (renamedBlock f body)
  | .forRange counter first last step body =>
      .forRange (f counter) (first.renamed f) (last.renamed f) (renamedOption f step)
        (renamedBlock f body)
  | .forEach vars iterators body =>
      .forEach (vars.map f) (renamedExprs f iterators) (renamedBlock f body)

def Clause.renamed (f : Name → Name) : Clause → Clause
  | .first condition body => .first (condition.renamed f) (renamedBlock f body)
  | .next condition body => .next (condition.renamed f) (renamedBlock f body)
  | .otherwise body => .otherwise (renamedBlock f body)

def renamedOption (f : Name → Name) : Option Expr → Option Expr
  | none => none
  | some e => some (e.renamed f)

def renamedExprs (f : Name → Name) : List Expr → List Expr
  | [] => []
  | e :: rest => e.renamed f :: renamedExprs f rest

def renamedFields (f : Name → Name) : List Field → List Field
  | [] => []
  | x :: rest => x.renamed f :: renamedFields f rest

def renamedBlock (f : Name → Name) : List Stat → List Stat
  | [] => []
  | s :: rest => s.renamed f :: renamedBlock f rest

def renamedClauses (f : Name → Name) : List Clause → List Clause
  | [] => []
  | c :: rest => c.renamed f :: renamedClauses f rest

end

def Part.renamed (f : Name → Name) : Part → Part
  | .expr e => .expr (e.renamed f)
  | .args arguments => .args (arguments.renamed f)
  | .field x => .field (x.renamed f)
  | .stat s => .stat (s.renamed f)
  | .clause c => .clause (c.renamed f)
  | .block body => .block (renamedBlock f body)

def Element.renamed (f : Name → Name) : Element → Element
  | .part p => .part (p.renamed f)
  | .name n => .name (f n)

/-!
## Names mapped twice
-/

section Twice

variable (f g : Name → Name)

theorem localVars_renamed_renamed (vars : List LocalVar) :
    (vars.map (LocalVar.renamed f)).map (LocalVar.renamed g) =
      vars.map (LocalVar.renamed (g ∘ f)) := by
  rw [List.map_map]
  rfl

mutual

theorem Expr.renamed_renamed : (e : Expr) → (e.renamed f).renamed g = e.renamed (g ∘ f)
  | .name _ | .string _ | .number .. | .boolean _ | .nil | .vararg .. => rfl
  | .function parameters body => by
      simp only [Expr.renamed, exprs_renamed_renamed parameters, block_renamed_renamed body]
  | .table fields => by simp only [Expr.renamed, fields_renamed_renamed fields]
  | .binary _ left right => by
      simp only [Expr.renamed, left.renamed_renamed, right.renamed_renamed]
  | .unary _ operand => by simp only [Expr.renamed, operand.renamed_renamed]
  | .member base _ _ => by simp only [Expr.renamed, base.renamed_renamed, Function.comp_apply]
  | .index base key => by simp only [Expr.renamed, base.renamed_renamed, key.renamed_renamed]
  | .call base arguments _ _ => by
      simp only [Expr.renamed, base.renamed_renamed, arguments.renamed_renamed]

theorem Args.renamed_renamed : (arguments : Args) →
    (arguments.renamed f).renamed g = arguments.renamed (g ∘ f)
  | .list arguments => by simp only [Args.renamed, exprs_renamed_renamed arguments]
  | .table fields => by simp only [Args.renamed, fields_renamed_renamed fields]
  | .string _ => rfl

theorem Field.renamed_renamed : (x : Field) → (x.renamed f).renamed g = x.renamed (g ∘ f)
  | .keyed key value => by simp only [Field.renamed, key.renamed_renamed, value.renamed_renamed]
  | .named _ value => by simp only [Field.renamed, value.renamed_renamed, Function.comp_apply]
  | .positional value => by simp only [Field.renamed, value.renamed_renamed]

theorem Stat.renamed_renamed : (s : Stat) → (s.renamed f).renamed g = s.renamed (g ∘ f)
  | .label _ | .goto _ | .leave => rfl
  | .ret values => by simp only [Stat.renamed, exprs_renamed_renamed values]
  | .choice clauses => by simp only [Stat.renamed, clauses_renamed_renamed clauses]
  | .whileLoop condition body => by
      simp only [Stat.renamed, condition.renamed_renamed, block_renamed_renamed body]
  | .block body => by simp only [Stat.renamed, block_renamed_renamed body]
  | .repeatLoop body condition => by
      simp only [Stat.renamed, condition.renamed_renamed, block_renamed_renamed body]
  | .locals vars values => by
      simp only [Stat.renamed, localVars_renamed_renamed, exprs_renamed_renamed values]
  | .assign targets values => by
      simp only [Stat.renamed, exprs_renamed_renamed targets, exprs_renamed_renamed values]
  | .call e => by simp only [Stat.renamed, e.renamed_renamed]
  | .function _ name parameters body => by
      simp only [Stat.renamed, option_renamed_renamed name, exprs_renamed_renamed parameters,
        block_renamed_renamed body]
  | .forRange _ first last step body => by
      simp only [Stat.renamed, first.renamed_renamed, last.renamed_renamed,
        option_renamed_renamed step, block_renamed_renamed body, Function.comp_apply]
  | .forEach vars iterators body => by
      simp only [Stat.renamed, List.map_map, exprs_renamed_renamed iterators,
        block_renamed_renamed body]

theorem Clause.renamed_renamed : (c : Clause) → (c.renamed f).renamed g = c.renamed (g ∘ f)
  | .first condition body => by
      simp only [Clause.renamed, condition.renamed_renamed, block_renamed_renamed body]
  | .next condition body => by
      simp only [Clause.renamed, condition.renamed_renamed, block_renamed_renamed body]
  | .otherwise body => by simp only [Clause.renamed, block_renamed_renamed body]

theorem option_renamed_renamed : (o : Option Expr) →
    renamedOption g (renamedOption f o) = renamedOption (g ∘ f) o
  | none => rfl
  | some e => by simp only [renamedOption, e.renamed_renamed]

theorem exprs_renamed_renamed : (es : List Expr) →
    renamedExprs g (renamedExprs f es) = renamedExprs (g ∘ f) es
  | [] => rfl
  | e :: rest => by simp only [renamedExprs, e.renamed_renamed, exprs_renamed_renamed rest]

theorem fields_renamed_renamed : (fs : List Field) →
    renamedFields g (renamedFields f fs) = renamedFields (g ∘ f) fs
  | [] => rfl
  | x :: rest => by simp only [renamedFields, x.renamed_renamed, fields_renamed_renamed rest]

theorem block_renamed_renamed : (body : List Stat) →
    renamedBlock g (renamedBlock f body) = renamedBlock (g ∘ f) body
  | [] => rfl
  | s :: rest => by simp only [renamedBlock, s.renamed_renamed, block_renamed_renamed rest]

theorem clauses_renamed_renamed : (clauses : List Clause) →
    renamedClauses g (renamedClauses f clauses) = renamedClauses (g ∘ f) clauses
  | [] => rfl
  | c :: rest => by simp only [renamedClauses, c.renamed_renamed, clauses_renamed_renamed rest]

end

end Twice

/-!
## Elements of a renamed element
-/

section Elements

variable (f : Name → Name)

@[simp]
theorem renamed_exprElements (es : List Expr) :
    exprElements (renamedExprs f es) = (exprElements es).map (Element.renamed f) := by
  induction es with
  | nil => rfl
  | cons e rest ih => exact congrArg (_ :: ·) ih

@[simp]
theorem renamed_fieldElements (fs : List Field) :
    fieldElements (renamedFields f fs) = (fieldElements fs).map (Element.renamed f) := by
  induction fs with
  | nil => rfl
  | cons x rest ih => exact congrArg (_ :: ·) ih

@[simp]
theorem renamed_blockElements (body : List Stat) :
    blockElements (renamedBlock f body) = (blockElements body).map (Element.renamed f) := by
  induction body with
  | nil => rfl
  | cons s rest ih => exact congrArg (_ :: ·) ih

@[simp]
theorem renamed_clauseElements (clauses : List Clause) :
    clauseElements (renamedClauses f clauses) =
      (clauseElements clauses).map (Element.renamed f) := by
  induction clauses with
  | nil => rfl
  | cons c rest ih => exact congrArg (_ :: ·) ih

@[simp]
theorem renamed_nameElements (names : List Name) :
    nameElements (names.map f) = (nameElements names).map (Element.renamed f) := by
  rw [nameElements, nameElements, List.map_map, List.map_map]
  rfl

@[simp]
theorem renamed_localElements (vars : List LocalVar) :
    nameElements (vars.map (LocalVar.name ∘ LocalVar.renamed f)) =
      (nameElements (vars.map LocalVar.name)).map (Element.renamed f) := by
  rw [← renamed_nameElements, List.map_map]
  rfl

@[simp]
theorem renamed_optionElements (o : Option Expr) :
    exprElements (renamedOption f o).toList =
      (exprElements o.toList).map (Element.renamed f) := by
  cases o <;> rfl

theorem Part.elements_renamed (p : Part) :
    (p.renamed f).elements = p.elements.map (Element.renamed f) := by
  rcases p with e | arguments | x | s | c | body
  · cases e <;> simp [Part.renamed, Part.elements, Expr.renamed, Expr.elements, Element.renamed]
  · cases arguments <;> simp [Part.renamed, Part.elements, Args.renamed, Args.elements]
  · cases x <;> simp [Part.renamed, Part.elements, Field.renamed, Field.elements, Element.renamed]
  · cases s <;> simp [Part.renamed, Part.elements, Stat.renamed, Stat.elements, Element.renamed]
  · cases c <;> simp [Part.renamed, Part.elements, Clause.renamed, Clause.elements,
      Element.renamed]
  · exact renamed_blockElements f body

theorem Element.names_renamed (x : Element) : (x.renamed f).names = x.names.map f := by
  cases x with
  | name n => rw [renamed, names_name, names_name, List.map_singleton]
  | part p =>
      rw [renamed, names_part, names_part, Part.elements_renamed, List.flatMap_map,
        List.map_flatMap]
      exact List.flatMap_congr fun inner hinner => names_renamed inner
termination_by sizeOf x
decreasing_by exact sizeOf_lt hinner

end Elements

/-!
## Trees without their names
-/

/-- The name that stands for all names. -/
def unnamed (_ : Name) : Name :=
  default

def Element.nameless (x : Element) : Element :=
  x.renamed unnamed

theorem Element.nameless_renamed (f : Name → Name) (x : Element) :
    (x.renamed f).nameless = x.nameless := by
  rcases x with ⟨e | arguments | y | s | c | body⟩ | n
  · exact congrArg (fun e => Element.part (.expr e)) (e.renamed_renamed f unnamed)
  · exact congrArg (fun arguments => Element.part (.args arguments))
      (arguments.renamed_renamed f unnamed)
  · exact congrArg (fun y => Element.part (.field y)) (y.renamed_renamed f unnamed)
  · exact congrArg (fun s => Element.part (.stat s)) (s.renamed_renamed f unnamed)
  · exact congrArg (fun c => Element.part (.clause c)) (c.renamed_renamed f unnamed)
  · exact congrArg (fun body => Element.part (.block body)) (block_renamed_renamed f unnamed body)
  · rfl

theorem Element.length_names (x : Element) : x.nameless.names.length = x.names.length := by
  rw [nameless, names_renamed, List.length_map]

/-- Rows of elements are equal when they are so without names and have equal names, if this is
so of each. -/
theorem elements_eq {xs ys : List Element}
    (heach : ∀ x ∈ xs, ∀ y, x.nameless = y.nameless → x.names = y.names → x = y)
    (hless : xs.map Element.nameless = ys.map Element.nameless)
    (hnames : xs.flatMap Element.names = ys.flatMap Element.names) : xs = ys := by
  induction xs generalizing ys with
  | nil => exact (List.map_eq_nil_iff.mp hless.symm).symm
  | cons x xs ih =>
      cases ys with
      | nil => cases hless
      | cons y ys =>
          rcases List.cons.inj hless with ⟨hx, hrest⟩
          have hlength : x.names.length = y.names.length := by
            rw [← x.length_names, ← y.length_names, hx]
          rw [List.flatMap_cons, List.flatMap_cons] at hnames
          rcases List.append_inj hnames hlength with ⟨hnx, hnrest⟩
          rw [heach x List.mem_cons_self y hx hnx,
            ih (fun z hz => heach z (List.mem_cons_of_mem _ hz)) hrest hnrest]

/-!
## An element from its parts
-/

@[simp]
theorem exprElements_inj {es es' : List Expr} : exprElements es = exprElements es' ↔ es = es' :=
  ⟨fun h => List.map_injective_iff.mpr (fun _ _ heq => by cases heq; rfl) h, fun h => h ▸ rfl⟩

@[simp]
theorem fieldElements_inj {fs fs' : List Field} :
    fieldElements fs = fieldElements fs' ↔ fs = fs' :=
  ⟨fun h => List.map_injective_iff.mpr (fun _ _ heq => by cases heq; rfl) h, fun h => h ▸ rfl⟩

@[simp]
theorem blockElements_inj {body body' : List Stat} :
    blockElements body = blockElements body' ↔ body = body' :=
  ⟨fun h => List.map_injective_iff.mpr (fun _ _ heq => by cases heq; rfl) h, fun h => h ▸ rfl⟩

@[simp]
theorem clauseElements_inj {clauses clauses' : List Clause} :
    clauseElements clauses = clauseElements clauses' ↔ clauses = clauses' :=
  ⟨fun h => List.map_injective_iff.mpr (fun _ _ heq => by cases heq; rfl) h, fun h => h ▸ rfl⟩

@[simp]
theorem nameElements_inj {names names' : List Name} :
    nameElements names = nameElements names' ↔ names = names' :=
  ⟨fun h => List.map_injective_iff.mpr (fun _ _ heq => by cases heq; rfl) h, fun h => h ▸ rfl⟩

/-- Expressions before other elements, with as many expressions in both rows. -/
theorem exprElements_append {f : Name → Name} {es es' : List Expr} {xs xs' : List Element}
    (hless : renamedExprs f es = renamedExprs f es')
    (h : exprElements es ++ xs = exprElements es' ++ xs') : es = es' ∧ xs = xs' := by
  have hlength := congrArg (List.length ∘ exprElements) hless
  simp only [Function.comp_apply, renamed_exprElements, List.length_map] at hlength
  rcases List.append_inj h hlength with ⟨hes, hxs⟩
  exact ⟨exprElements_inj.mp hes, hxs⟩

theorem optionElements_append {f : Name → Name} {o o' : Option Expr} {xs xs' : List Element}
    (hless : renamedOption f o = renamedOption f o')
    (h : exprElements o.toList ++ xs = exprElements o'.toList ++ xs') : o = o' ∧ xs = xs' := by
  cases o <;> cases o' <;> simp [renamedOption, exprElements] at hless h ⊢ <;> exact h

theorem localVars_eq {f : Name → Name} {vars vars' : List LocalVar}
    (hless : vars.map (LocalVar.renamed f) = vars'.map (LocalVar.renamed f))
    (hnames : vars.map LocalVar.name = vars'.map LocalVar.name) : vars = vars' := by
  induction vars generalizing vars' with
  | nil => exact (List.map_eq_nil_iff.mp hless.symm).symm
  | cons v rest ih =>
      cases vars' with
      | nil => cases hless
      | cons v' rest' =>
          rcases v with ⟨n, attrib⟩
          rcases v' with ⟨n', attrib'⟩
          rcases List.cons.inj hless with ⟨hv, hrest⟩
          rcases List.cons.inj hnames with ⟨rfl, hnrest⟩
          simp only [LocalVar.renamed, LocalVar.mk.injEq, true_and] at hv
          rw [hv, ih hrest hnrest]

section Parts

variable {f : Name → Name}

theorem Expr.eq_of_elements {e e' : Expr} (hless : e.renamed f = e'.renamed f)
    (h : e.elements = e'.elements) : e = e' := by
  cases e <;> cases e' <;> simp only [Expr.renamed, reduceCtorEq] at hless <;>
    simp_all [Expr.elements]

theorem Args.eq_of_elements {arguments arguments' : Args}
    (hless : arguments.renamed f = arguments'.renamed f)
    (h : arguments.elements = arguments'.elements) : arguments = arguments' := by
  cases arguments <;> cases arguments' <;> simp only [Args.renamed, reduceCtorEq] at hless <;>
    simp_all [Args.elements]

theorem Field.eq_of_elements {x x' : Field} (hless : x.renamed f = x'.renamed f)
    (h : x.elements = x'.elements) : x = x' := by
  cases x <;> cases x' <;> simp only [Field.renamed, reduceCtorEq] at hless <;>
    simp_all [Field.elements]

theorem Clause.eq_of_elements {c c' : Clause} (hless : c.renamed f = c'.renamed f)
    (h : c.elements = c'.elements) : c = c' := by
  cases c <;> cases c' <;> simp only [Clause.renamed, reduceCtorEq] at hless <;>
    simp_all [Clause.elements]

theorem Stat.eq_of_elements {s s' : Stat} (hless : s.renamed f = s'.renamed f)
    (h : s.elements = s'.elements) : s = s' := by
  cases s <;> cases s' <;> simp only [Stat.renamed, reduceCtorEq] at hless
  case locals.locals vars values vars' values' =>
    rcases Stat.locals.inj hless with ⟨hvars, hvalues⟩
    have hlength := congrArg List.length hvars
    rcases List.append_inj h (by simpa [nameElements] using hlength) with ⟨hnames, hes⟩
    rw [localVars_eq hvars (nameElements_inj.mp hnames), exprElements_inj.mp hes]
  case assign.assign targets values targets' values' =>
    rcases Stat.assign.inj hless with ⟨htargets, _⟩
    rcases exprElements_append htargets h with ⟨rfl, hes⟩
    rw [exprElements_inj.mp hes]
  case function.function isLocal name parameters body isLocal' name' parameters' body' =>
    rcases Stat.function.inj hless with ⟨rfl, hname, hparameters, _⟩
    rcases optionElements_append hname h with ⟨rfl, hrest⟩
    rcases exprElements_append hparameters hrest with ⟨rfl, hbody⟩
    simp_all
  case forRange.forRange counter first last step body counter' first' last' step' body' =>
    rcases Stat.forRange.inj hless with ⟨_, _, _, hstep, _⟩
    rcases List.cons.inj h with ⟨hcounter, hrest⟩
    rcases List.cons.inj hrest with ⟨hfirst, hrest⟩
    rcases List.cons.inj hrest with ⟨hlast, hrest⟩
    rcases optionElements_append hstep hrest with ⟨rfl, hbody⟩
    simp_all
  case forEach.forEach vars iterators body vars' iterators' body' =>
    rcases Stat.forEach.inj hless with ⟨hvars, hiterators, _⟩
    have hlength := congrArg List.length hvars
    rcases List.append_inj h (by simpa [nameElements] using hlength) with ⟨hnames, hrest⟩
    rcases exprElements_append hiterators hrest with ⟨rfl, hbody⟩
    simp_all
  all_goals simp_all [Stat.elements]

theorem Part.eq_of_elements {p p' : Part} (hless : p.renamed f = p'.renamed f)
    (h : p.elements = p'.elements) : p = p' := by
  cases p <;> cases p' <;> simp only [Part.renamed, reduceCtorEq, Part.expr.injEq,
    Part.args.injEq, Part.field.injEq, Part.stat.injEq, Part.clause.injEq] at hless
  case expr.expr => rw [Expr.eq_of_elements hless h]
  case args.args => rw [Args.eq_of_elements hless h]
  case field.field => rw [Field.eq_of_elements hless h]
  case stat.stat => rw [Stat.eq_of_elements hless h]
  case clause.clause => rw [Clause.eq_of_elements hless h]
  case block.block => rw [blockElements_inj.mp h]

end Parts

/-- An element is determined by what it is without names and by its names. -/
theorem Element.eq_of_names : {x y : Element} → x.nameless = y.nameless → x.names = y.names → x = y
  | .name n, .name m, _, hnames => by
      rw [names_name, names_name, List.cons.injEq] at hnames
      rw [hnames.1]
  | .part p, .part q, hless, hnames => by
      have hpq := Element.part.inj hless
      have helements := congrArg Part.elements hpq
      rw [Part.elements_renamed, Part.elements_renamed] at helements
      rw [names_part, names_part] at hnames
      have heq : p.elements = q.elements :=
        elements_eq (fun inner hinner _ => eq_of_names) helements hnames
      rw [Part.eq_of_elements hpq heq]
termination_by x => sizeOf x
decreasing_by exact sizeOf_lt hinner

end Lua
end LuaBundle
