import LuaBundle.Proofs.Grammar.FaultOrder
import LuaBundle.Proofs.Tree.Elements

/-!
# Parts of sound trees

The tree of a script is well-formed and has no faults, and so has every part of it.  A part
that has no faults in its function has none outside of all functions either.
-/

namespace LuaBundle
namespace Lua

open Text

/-!
## Outside of functions

Further arguments may be used where no function stands around.
-/

section Outside

variable {encoding : Encoding} {rest : Bool}

theorem append_eq_nil_of {front back front' back' : List α} (hfront : front = [] → front' = [])
    (hback : back = [] → back' = []) (h : front ++ back = []) : front' ++ back' = [] := by
  rcases List.append_eq_nil_iff.mp h with ⟨rfl, rfl⟩
  rw [hfront rfl, hback rfl]
  rfl

mutual

theorem Expr.faults_outside : (e : Expr) → e.faults encoding rest = [] →
    e.faults encoding true = []
  | .name _, _ | .boolean _, _ | .nil, _ | .vararg .., _ => rfl
  | .string _, h | .number .., h | .function .., h => h
  | .table fields, h => fieldFaults_outside fields h
  | .binary _ left right, h => append_eq_nil_of left.faults_outside right.faults_outside h
  | .unary _ operand, h => operand.faults_outside h
  | .member base _ _, h => base.faults_outside h
  | .index base key, h => append_eq_nil_of base.faults_outside key.faults_outside h
  | .call base arguments _ _, h =>
      append_eq_nil_of base.faults_outside arguments.faults_outside h

theorem Args.faults_outside : (arguments : Args) → arguments.faults encoding rest = [] →
    arguments.faults encoding true = []
  | .list arguments, h => exprFaults_outside arguments h
  | .table fields, h => fieldFaults_outside fields h
  | .string _, h => h

theorem Field.faults_outside : (f : Field) → f.faults encoding rest = [] →
    f.faults encoding true = []
  | .keyed key value, h => append_eq_nil_of key.faults_outside value.faults_outside h
  | .named _ value, h => value.faults_outside h
  | .positional value, h => value.faults_outside h

theorem exprFaults_outside : (es : List Expr) → exprFaults encoding rest es = [] →
    exprFaults encoding true es = []
  | [], h => h
  | e :: more, h => append_eq_nil_of e.faults_outside (exprFaults_outside more) h

theorem fieldFaults_outside : (fs : List Field) → fieldFaults encoding rest fs = [] →
    fieldFaults encoding true fs = []
  | [], h => h
  | f :: more, h => append_eq_nil_of f.faults_outside (fieldFaults_outside more) h

end

end Outside

/-!
## Parts
-/

/-- A part that is well-formed and has no faults, where further arguments may be used or not. -/
def Part.SoundIn (spelling encoding : Encoding) (rest : Bool) : Part → Prop
  | .expr e => (∃ callee, e.WellFormed spelling callee) ∧ e.faults encoding rest = []
  | .args arguments => arguments.WellFormed spelling ∧ arguments.faults encoding rest = []
  | .field f => f.WellFormed spelling ∧ f.faults encoding rest = []
  | .stat s => s.WellFormed spelling ∧ s.faults encoding rest = []
  | .clause c => c.WellFormed spelling ∧ c.faults encoding rest = []
  | .block body => blockWellFormed spelling body ∧ blockFaults encoding rest body = []

def Part.Sound (spelling encoding : Encoding) (p : Part) : Prop :=
  ∃ rest, p.SoundIn spelling encoding rest

section Parts

variable {spelling encoding : Encoding} {rest : Bool} {inner : Part}

theorem sound_expr {e : Expr} {callee : Bool} (h : e.WellFormed spelling callee)
    (hfaults : e.faults encoding rest = []) : (Part.expr e).Sound spelling encoding :=
  ⟨rest, ⟨callee, h⟩, hfaults⟩

theorem sound_block {body : List Stat} (h : blockWellFormed spelling body)
    (hfaults : blockFaults encoding rest body = []) : (Part.block body).Sound spelling encoding :=
  ⟨rest, h, hfaults⟩

theorem sound_pair {e : Expr} {p : Part} {callee : Bool} (h : e.WellFormed spelling callee)
    (hfaults : e.faults encoding rest = []) (hp : p.Sound spelling encoding)
    (hinner : .part inner ∈ [Element.part (.expr e), .part p]) :
    inner.Sound spelling encoding := by
  rcases List.mem_cons.mp hinner with heq | hlast
  · cases heq
    exact sound_expr h hfaults
  · cases List.mem_singleton.mp hlast
    exact hp

theorem sound_exprs {es : List Expr} (h : exprsWellFormed spelling es)
    (hfaults : exprFaults encoding rest es = []) (hinner : .part inner ∈ exprElements es) :
    inner.Sound spelling encoding := by
  rw [exprFaults_eq, List.flatMap_eq_nil_iff] at hfaults
  rcases List.mem_map.mp hinner with ⟨e, he, heq⟩
  cases heq
  exact sound_expr (exprsWellFormed_iff.mp h e he) (hfaults e he)

theorem sound_fields {fs : List Field} (h : fieldsWellFormed spelling fs)
    (hfaults : fieldFaults encoding rest fs = []) (hinner : .part inner ∈ fieldElements fs) :
    inner.Sound spelling encoding := by
  rw [fieldFaults_eq, List.flatMap_eq_nil_iff] at hfaults
  rcases List.mem_map.mp hinner with ⟨f, hf, heq⟩
  cases heq
  exact ⟨rest, fieldsWellFormed_iff.mp h f hf, hfaults f hf⟩

theorem sound_option {o : Option Expr} (h : optionWellFormed spelling o)
    (hfaults : optionFaults encoding rest o = []) (hinner : .part inner ∈ exprElements o.toList) :
    inner.Sound spelling encoding := by
  cases o with
  | none => cases hinner
  | some e =>
      cases List.mem_singleton.mp hinner
      exact sound_expr h hfaults

theorem parameters_faults : {parameters : List Expr} → Parameters spelling parameters →
    exprFaults encoding true parameters = []
  | [], _ => rfl
  | .name _ :: _, h => List.append_eq_nil_iff.mpr ⟨rfl, parameters_faults h.2⟩
  | [.vararg ..], _ => rfl

theorem sound_function {parameters : List Expr} {body : List Stat}
    (h : Parameters spelling parameters) (hbody : blockWellFormed spelling body)
    (hfaults : blockFaults encoding rest body = [])
    (hinner : .part inner ∈ exprElements parameters ++ [.part (.block body)]) :
    inner.Sound spelling encoding := by
  rcases List.mem_append.mp hinner with hparameter | hlast
  · exact sound_exprs (parameters_wellFormed h) (parameters_faults h) hparameter
  · cases List.mem_singleton.mp hlast
    exact sound_block hbody hfaults

theorem sound_clauses {clauses : List Clause} (h : clausesWellFormed spelling clauses)
    (hfaults : clauseFaults encoding rest clauses = [])
    (hinner : .part inner ∈ clauseElements clauses) : inner.Sound spelling encoding := by
  induction clauses with
  | nil => cases hinner
  | cons c more ih =>
      rcases List.append_eq_nil_iff.mp hfaults with ⟨hc, hmore⟩
      rcases List.mem_cons.mp hinner with heq | hinner
      · cases heq
        exact ⟨rest, h.1, hc⟩
      · exact ih h.2 hmore hinner

theorem sound_statements {body : List Stat} (h : blockWellFormed spelling body)
    (hfaults : blockFaults encoding rest body = []) (hinner : .part inner ∈ blockElements body) :
    inner.Sound spelling encoding := by
  induction body with
  | nil => cases hinner
  | cons s more ih =>
      rcases List.append_eq_nil_iff.mp hfaults with ⟨hs, hmore⟩
      rcases List.mem_cons.mp hinner with heq | hinner
      · cases heq
        exact ⟨rest, h.1, hs⟩
      · exact ih h.2.2 hmore hinner

theorem Expr.sound_inner {e : Expr} (h : (Part.expr e).Sound spelling encoding)
    (hinner : .part inner ∈ e.elements) : inner.Sound spelling encoding := by
  rcases h with ⟨rest, ⟨callee, he⟩, hfaults⟩
  cases e with
  | function parameters body => exact sound_function he.1 he.2 hfaults hinner
  | table fields => exact sound_fields he hfaults hinner
  | binary op left right =>
      rcases List.append_eq_nil_iff.mp hfaults with ⟨hleft, hright⟩
      exact sound_pair he.1 hleft (sound_expr he.2 hright) hinner
  | unary op operand =>
      cases List.mem_singleton.mp hinner
      exact sound_expr he hfaults
  | member base indexer n =>
      rcases List.mem_cons.mp hinner with heq | hname
      · cases heq
        exact sound_expr he.2.2.1 hfaults
      · cases List.mem_singleton.mp hname
  | index base key =>
      rcases List.append_eq_nil_iff.mp hfaults with ⟨hbase, hkey⟩
      exact sound_pair he.2.1 hbase (sound_expr he.2.2 hkey) hinner
  | call base arguments inParens line =>
      rcases List.append_eq_nil_iff.mp hfaults with ⟨hbase, harguments⟩
      have hargs : (Part.args arguments).Sound spelling encoding := ⟨rest, he.2.2, harguments⟩
      exact sound_pair he.2.1 hbase hargs hinner
  | name => cases List.mem_singleton.mp hinner
  | _ => cases hinner

theorem Args.sound_inner {arguments : Args} (h : (Part.args arguments).Sound spelling encoding)
    (hinner : .part inner ∈ arguments.elements) : inner.Sound spelling encoding := by
  rcases h with ⟨rest, h, hfaults⟩
  cases arguments with
  | list arguments => exact sound_exprs h hfaults hinner
  | table fields => exact sound_fields h hfaults hinner
  | string => cases hinner

theorem Field.sound_inner {f : Field} (h : (Part.field f).Sound spelling encoding)
    (hinner : .part inner ∈ f.elements) : inner.Sound spelling encoding := by
  rcases h with ⟨rest, h, hfaults⟩
  cases f with
  | keyed key value =>
      rcases List.append_eq_nil_iff.mp hfaults with ⟨hkey, hvalue⟩
      exact sound_pair h.1 hkey (sound_expr h.2 hvalue) hinner
  | named n value =>
      cases List.mem_singleton.mp ((List.mem_cons.mp hinner).resolve_left (by simp))
      exact sound_expr h.2 hfaults
  | positional value =>
      cases List.mem_singleton.mp hinner
      exact sound_expr h hfaults

theorem Clause.sound_inner {c : Clause} (h : (Part.clause c).Sound spelling encoding)
    (hinner : .part inner ∈ c.elements) : inner.Sound spelling encoding := by
  rcases h with ⟨rest, h, hfaults⟩
  cases c with
  | first condition body =>
      rcases List.append_eq_nil_iff.mp hfaults with ⟨hcondition, hbody⟩
      exact sound_pair h.1 hcondition (sound_block h.2 hbody) hinner
  | next condition body =>
      rcases List.append_eq_nil_iff.mp hfaults with ⟨hcondition, hbody⟩
      exact sound_pair h.1 hcondition (sound_block h.2 hbody) hinner
  | otherwise body =>
      cases List.mem_singleton.mp hinner
      exact sound_block h hfaults

theorem not_mem_names {names : List Name} (h : Element.part inner ∈ nameElements names) :
    False := by
  rcases List.mem_map.mp h with ⟨n, _, heq⟩
  cases heq

theorem Stat.sound_inner {s : Stat} (h : (Part.stat s).Sound spelling encoding)
    (hinner : .part inner ∈ s.elements) : inner.Sound spelling encoding := by
  rcases h with ⟨rest, h, hfaults⟩
  cases s with
  | label n => cases List.mem_singleton.mp hinner
  | goto n => cases List.mem_singleton.mp hinner
  | leave => cases hinner
  | ret values => exact sound_exprs h hfaults hinner
  | choice clauses => exact sound_clauses h.2 hfaults hinner
  | whileLoop condition body =>
      rcases List.append_eq_nil_iff.mp hfaults with ⟨hcondition, hbody⟩
      exact sound_pair h.1 hcondition (sound_block h.2 hbody) hinner
  | block body =>
      cases List.mem_singleton.mp hinner
      exact sound_block h hfaults
  | repeatLoop body condition =>
      rcases List.append_eq_nil_iff.mp hfaults with ⟨hbody, hcondition⟩
      rcases List.mem_cons.mp hinner with heq | hlast
      · cases heq
        exact sound_block h.1 hbody
      · cases List.mem_singleton.mp hlast
        exact sound_expr h.2 hcondition
  | locals vars values =>
      rcases List.append_eq_nil_iff.mp hfaults with ⟨_, hvalues⟩
      have hvalue := (List.mem_append.mp hinner).resolve_left not_mem_names
      exact sound_exprs h.2.2 hvalues hvalue
  | assign targets values =>
      rcases List.append_eq_nil_iff.mp hfaults with ⟨htargets, hvalues⟩
      rcases List.mem_append.mp hinner with htarget | hvalue
      · exact sound_exprs h.2.2.2.1 htargets htarget
      · exact sound_exprs h.2.2.2.2 hvalues hvalue
  | call e =>
      cases List.mem_singleton.mp hinner
      exact sound_expr h.2.2 hfaults
  | function isLocal name parameters body =>
      rcases List.append_eq_nil_iff.mp hfaults with ⟨hname, hbody⟩
      rcases functionName_wellFormed h.1 with ⟨e, rfl, he⟩
      rcases List.mem_cons.mp hinner with heq | hrest
      · cases heq
        exact sound_expr he hname
      · exact sound_function h.2.1 h.2.2 hbody hrest
  | forRange counter first last step body =>
      simp only [Stat.faults, List.append_eq_nil_iff] at hfaults
      rcases hfaults with ⟨⟨⟨hfirst, hlast⟩, hstep⟩, hbody⟩
      simp only [Stat.elements, List.mem_append, List.mem_singleton, reduceCtorEq,
        Element.part.injEq, false_or] at hinner
      rcases hinner with rfl | rfl | hinner | rfl
      · exact sound_expr h.2.1 hfirst
      · exact sound_expr h.2.2.1 hlast
      · exact sound_option h.2.2.2.1 hstep hinner
      · exact sound_block h.2.2.2.2 hbody
  | forEach vars iterators body =>
      rcases List.append_eq_nil_iff.mp hfaults with ⟨hiterators, hbody⟩
      rcases List.mem_append.mp ((List.mem_append.mp hinner).resolve_left not_mem_names) with
        hiterator | hlast
      · exact sound_exprs h.2.2.2.1 hiterators hiterator
      · cases List.mem_singleton.mp hlast
        exact sound_block h.2.2.2.2 hbody

theorem Part.Sound.step {p : Part} (h : p.Sound spelling encoding)
    (hinner : .part inner ∈ p.elements) : inner.Sound spelling encoding := by
  cases p with
  | expr e => exact e.sound_inner h hinner
  | args arguments => exact arguments.sound_inner h hinner
  | field f => exact f.sound_inner h hinner
  | stat s => exact s.sound_inner h hinner
  | clause c => exact c.sound_inner h hinner
  | block body =>
      rcases h with ⟨rest, h, hfaults⟩
      exact sound_statements h hfaults hinner

theorem Part.Sound.within {p : Part} (h : p.Sound spelling encoding)
    (hinner : .part inner ∈ (Element.part p).preorder) : inner.Sound spelling encoding := by
  rw [Element.preorder_eq] at hinner
  rcases List.mem_cons.mp hinner with heq | hin
  · cases heq
    exact h
  · rcases List.mem_flatMap.mp hin with ⟨x, hx, hdeep⟩
    cases x with
    | part q => exact (h.step hx).within hdeep
    | name n =>
        rw [Element.preorder_eq] at hdeep
        simp [Element.elements] at hdeep
termination_by sizeOf (Element.part p)
decreasing_by exact Element.sizeOf_lt hx

end Parts

end Lua
end LuaBundle
