import LuaBundle.Lua.Tour
import LuaBundle.Proofs.Merge
import LuaBundle.Proofs.Printing.Readable
import LuaBundle.Proofs.Tree.Visible

/-!
# Identifiers of a script

The names that stand as expressions in a script are marked by what is in scope where they
stand, and the free ones are listed in the order in which a walk over the tree meets them.
-/

namespace LuaBundle
namespace Lua

open Text

/-!
## Names that a tour meets
-/

def Event.identifier? : Event → Option Name
  | .expression (.name n) => some n
  | _ => none

/-- The names among the expressions that a tour has met, the first one first. -/
def Tour.identifiers (tour : Tour) : List Name :=
  tour.events.reverse.filterMap Event.identifier?

/-- A part of a tour that does not stop, and the names that it meets as expressions. -/
def Meets {α : Type} (act : StateM Tour α) (names : List Name) : Prop :=
  ∀ tour : Tour, tour.stoppedAt = none →
    (act.run tour).2.stoppedAt = none ∧
      (act.run tour).2.identifiers = tour.identifiers ++ names

theorem meets_pure {α : Type} (a : α) : Meets (pure a) [] :=
  fun _ htour => ⟨htour, (List.append_nil _).symm⟩

theorem Meets.bind {α β : Type} {act : StateM Tour α} {next : α → StateM Tour β}
    {front back : List Name} (h : Meets act front) (hnext : ∀ a, Meets (next a) back) :
    Meets (act >>= next) (front ++ back) := by
  intro tour htour
  have hact := h tour htour
  have hrest := hnext (act.run tour).1 (act.run tour).2 hact.1
  rw [hact.2, List.append_assoc] at hrest
  exact hrest

theorem Meets.build {α β : Type} {act : StateM Tour α} {names : List Name} (h : Meets act names)
    (f : α → β) : Meets (act >>= fun a => pure (f a)) names := by
  have hbind := h.bind fun a => meets_pure (f a)
  rw [List.append_nil] at hbind
  exact hbind

theorem meets_mapM {α β : Type} {act : α → StateM Tour β} (h : ∀ a, Meets (act a) [])
    (items : List α) : Meets (items.mapM act) [] := by
  induction items with
  | nil =>
      rw [List.mapM_nil]
      exact meets_pure []
  | cons a rest ih =>
      rw [List.mapM_cons]
      exact (h a).bind fun b => ih.build (b :: ·)

theorem meets_record (event : Event) :
    Meets (modify (·.record event)) event.identifier?.toList := by
  intro tour htour
  have hrun : ((modify (·.record event) : StateM Tour PUnit).run tour).2 =
      { tour with events := event :: tour.events } := by
    change tour.record event = _
    rw [Tour.record, htour]
    rfl
  rw [hrun]
  constructor
  · exact htour
  · rw [Tour.identifiers, List.reverse_cons, List.filterMap_append, Tour.identifiers]
    cases hname : event.identifier? <;> simp [hname]

section Tours

variable {renamings : List (String × String)}

theorem meets_name (n : Name) : Meets ((Itinerary.mk renamings none).visitor.name n) [] := by
  intro tour htour
  have hrun : (((Itinerary.mk renamings none).visitor.name n).run tour).2 =
      { tour with events := .name n :: tour.events } := by
    change ((Itinerary.mk renamings none).meetName n tour).2 = _
    simp only [Itinerary.meetName, htour, Tour.record]
    rfl
  rw [hrun]
  constructor
  · exact htour
  · simp [Tour.identifiers, Event.identifier?]

theorem meets_block (body : List Stat) :
    Meets ((Itinerary.mk renamings none).visitor.block body) [] :=
  meets_record (.block body)

theorem meets_statement (s : Stat) : Meets ((Itinerary.mk renamings none).visitor.statement s) [] :=
  meets_record (.statement s)

/-- A tour puts nothing in the place of an expression: it walks into every one. -/
theorem Meets.expression {α : Type} {e : Expr} {next : Option Expr → StateM Tour α}
    {names : List Name} (h : Meets (next none) names) :
    Meets ((Itinerary.mk renamings none).visitor.expression e >>= next)
      ((Event.expression e).identifier?.toList ++ names) := by
  have hnone : (Itinerary.mk renamings none).visitor.expression e >>= next =
      modify (·.record (.expression e)) >>= fun _ => next none := rfl
  rw [hnone]
  exact (meets_record (.expression e)).bind fun _ => h

mutual

theorem Expr.meets : (e : Expr) →
    Meets (e.walk (Itinerary.mk renamings none).visitor) e.references
  | .name n => by
      rw [Expr.walk]
      exact Meets.expression ((meets_name n).build Expr.name)
  | .string literal => by
      rw [Expr.walk]
      exact Meets.expression (meets_pure (Expr.string literal))
  | .number numeral line => by
      rw [Expr.walk]
      exact Meets.expression (meets_pure (Expr.number numeral line))
  | .boolean value => by
      rw [Expr.walk]
      exact Meets.expression (meets_pure (Expr.boolean value))
  | .nil => by
      rw [Expr.walk]
      exact Meets.expression (meets_pure Expr.nil)
  | .vararg inParens line => by
      rw [Expr.walk]
      exact Meets.expression (meets_pure (Expr.vararg inParens line))
  | .function parameters body => by
      rw [Expr.walk]
      exact Meets.expression ((exprs_meet parameters).bind fun parameters' =>
        (meets_block body).bind fun _ => (block_meets body).build (Expr.function parameters'))
  | .table fields => by
      rw [Expr.walk]
      exact Meets.expression ((fields_meet fields).build Expr.table)
  | .binary op left right => by
      rw [Expr.walk]
      exact Meets.expression ((Expr.meets left).bind fun left' =>
        (Expr.meets right).build (Expr.binary op left'))
  | .unary op operand => by
      rw [Expr.walk]
      exact Meets.expression ((Expr.meets operand).build (Expr.unary op))
  | .member base indexer n => by
      rw [Expr.walk, Expr.references, ← List.append_nil base.references]
      exact Meets.expression ((Expr.meets base).bind fun base' =>
        (meets_name n).build (Expr.member base' indexer))
  | .index base key => by
      rw [Expr.walk]
      exact Meets.expression ((Expr.meets base).bind fun base' =>
        (Expr.meets key).build (Expr.index base'))
  | .call base arguments inParens line => by
      rw [Expr.walk]
      exact Meets.expression ((Expr.meets base).bind fun base' =>
        (Args.meets arguments).build fun arguments' => Expr.call base' arguments' inParens line)

theorem Args.meets : (arguments : Args) →
    Meets (arguments.walk (Itinerary.mk renamings none).visitor) arguments.references
  | .list arguments => by
      rw [Args.walk]
      exact (exprs_meet arguments).build Args.list
  | .table fields => by
      rw [Args.walk]
      exact (fields_meet fields).build Args.table
  | .string literal => by
      rw [Args.walk]
      exact meets_pure (Args.string literal)

theorem Field.meets : (f : Field) →
    Meets (f.walk (Itinerary.mk renamings none).visitor) f.references
  | .keyed key value => by
      rw [Field.walk]
      exact (Expr.meets key).bind fun key' => (Expr.meets value).build (Field.keyed key')
  | .named n value => by
      rw [Field.walk]
      exact (meets_name n).bind fun n' => (Expr.meets value).build (Field.named n')
  | .positional value => by
      rw [Field.walk]
      exact (Expr.meets value).build Field.positional

theorem Stat.meets : (s : Stat) →
    Meets (s.walk (Itinerary.mk renamings none).visitor) s.references
  | .label n => by
      rw [Stat.walk]
      exact (meets_statement (.label n)).bind fun _ => (meets_name n).build Stat.label
  | .goto n => by
      rw [Stat.walk]
      exact (meets_statement (.goto n)).bind fun _ => (meets_name n).build Stat.goto
  | .leave => by
      rw [Stat.walk]
      exact (meets_statement .leave).bind fun _ => meets_pure Stat.leave
  | .ret values => by
      rw [Stat.walk]
      exact (meets_statement (.ret values)).bind fun _ => (exprs_meet values).build Stat.ret
  | .choice clauses => by
      rw [Stat.walk]
      exact (meets_statement (.choice clauses)).bind fun _ =>
        (clauses_meet clauses).build Stat.choice
  | .whileLoop condition body => by
      rw [Stat.walk]
      exact (meets_statement (.whileLoop condition body)).bind fun _ =>
        (Expr.meets condition).bind fun condition' =>
          (meets_block body).bind fun _ => (block_meets body).build (Stat.whileLoop condition')
  | .block body => by
      rw [Stat.walk]
      exact (meets_statement (.block body)).bind fun _ =>
        (meets_block body).bind fun _ => (block_meets body).build Stat.block
  | .repeatLoop body condition => by
      rw [Stat.walk]
      exact (meets_statement (.repeatLoop body condition)).bind fun _ =>
        (meets_block body).bind fun _ => (block_meets body).bind fun body' =>
          (Expr.meets condition).build (Stat.repeatLoop body')
  | .locals vars values => by
      rw [Stat.walk]
      have hvar : ∀ v : LocalVar, Meets (do
          return { v with name := ← (Itinerary.mk renamings none).visitor.name v.name }) [] :=
        fun v => (meets_name v.name).build fun name => { v with name }
      exact (meets_statement (.locals vars values)).bind fun _ =>
        (meets_mapM hvar vars).bind fun vars' => (exprs_meet values).build (Stat.locals vars')
  | .assign targets values => by
      rw [Stat.walk]
      exact (meets_statement (.assign targets values)).bind fun _ =>
        (exprs_meet targets).bind fun targets' =>
          (exprs_meet values).build (Stat.assign targets')
  | .call e => by
      rw [Stat.walk]
      exact (meets_statement (.call e)).bind fun _ => (Expr.meets e).build Stat.call
  | .function isLocal name parameters body => by
      rw [Stat.walk, Stat.references, List.append_assoc]
      exact (meets_statement (.function isLocal name parameters body)).bind fun _ =>
        (option_meets name).bind fun name' => (exprs_meet parameters).bind fun parameters' =>
          (meets_block body).bind fun _ =>
            (block_meets body).build (Stat.function isLocal name' parameters')
  | .forRange counter first last step body => by
      rw [Stat.walk, Stat.references, List.append_assoc, List.append_assoc]
      exact (meets_statement (.forRange counter first last step body)).bind fun _ =>
        (meets_name counter).bind fun counter' =>
          (Expr.meets first).bind fun first' => (Expr.meets last).bind fun last' =>
            (option_meets step).bind fun step' => (meets_block body).bind fun _ =>
              (block_meets body).build (Stat.forRange counter' first' last' step')
  | .forEach vars iterators body => by
      rw [Stat.walk]
      exact (meets_statement (.forEach vars iterators body)).bind fun _ =>
        (meets_mapM meets_name vars).bind fun vars' =>
          (exprs_meet iterators).bind fun iterators' => (meets_block body).bind fun _ =>
            (block_meets body).build (Stat.forEach vars' iterators')

theorem Clause.meets : (c : Clause) →
    Meets (c.walk (Itinerary.mk renamings none).visitor) c.references
  | .first condition body => by
      rw [Clause.walk]
      exact (Expr.meets condition).bind fun condition' =>
        (meets_block body).bind fun _ => (block_meets body).build (Clause.first condition')
  | .next condition body => by
      rw [Clause.walk]
      exact (Expr.meets condition).bind fun condition' =>
        (meets_block body).bind fun _ => (block_meets body).build (Clause.next condition')
  | .otherwise body => by
      rw [Clause.walk]
      exact (meets_block body).bind fun _ => (block_meets body).build Clause.otherwise

theorem option_meets : (o : Option Expr) →
    Meets (walkOption (Itinerary.mk renamings none).visitor o) (optionReferences o)
  | none => meets_pure none
  | some e => (Expr.meets e).build some

theorem exprs_meet : (es : List Expr) →
    Meets (walkExprs (Itinerary.mk renamings none).visitor es) (exprReferences es)
  | [] => meets_pure []
  | e :: rest => (Expr.meets e).bind fun e' => (exprs_meet rest).build (e' :: ·)

theorem fields_meet : (fs : List Field) →
    Meets (walkFields (Itinerary.mk renamings none).visitor fs) (fieldReferences fs)
  | [] => meets_pure []
  | f :: rest => (Field.meets f).bind fun f' => (fields_meet rest).build (f' :: ·)

theorem block_meets : (body : List Stat) →
    Meets (walkBlock (Itinerary.mk renamings none).visitor body) (blockReferences body)
  | [] => meets_pure []
  | s :: rest => (Stat.meets s).bind fun s' => (block_meets rest).build (s' :: ·)

theorem clauses_meet : (clauses : List Clause) →
    Meets (walkClauses (Itinerary.mk renamings none).visitor clauses) (clauseReferences clauses)
  | [] => meets_pure []
  | c :: rest => (Clause.meets c).bind fun c' => (clauses_meet rest).build (c' :: ·)

end

end Tours

/-- A tour without a stop meets the references of a block in reading order. -/
theorem run_identifiers (renamings : List (String × String)) (body : List Stat) :
    ((Itinerary.mk renamings none).run body).2.identifiers = blockReferences body :=
  (block_meets body {} rfl).2

/-!
## Parts with references
-/

/-- Somewhere in a part stands another one. -/
def Part.Contains (whole part : Part) : Prop :=
  ∃ names, whole.Within names part

theorem Part.Contains.step {whole part inside : Part} {more : List String}
    (h : whole.Contains part) (inner : part.Holds more inside) : whole.Contains inside := by
  rcases h with ⟨names, outer⟩
  exact ⟨more ++ names, outer.step inner⟩

def Part.references : Part → List Name
  | .expr e => e.references
  | .args arguments => arguments.references
  | .field f => f.references
  | .stat s => s.references
  | .clause c => c.references
  | .block body => blockReferences body

theorem exprReferences_eq (es : List Expr) : exprReferences es = es.flatMap Expr.references := by
  induction es with
  | nil => rfl
  | cons e rest ih => rw [exprReferences, List.flatMap_cons, ih]

theorem fieldReferences_eq (fs : List Field) :
    fieldReferences fs = fs.flatMap Field.references := by
  induction fs with
  | nil => rfl
  | cons f rest ih => rw [fieldReferences, List.flatMap_cons, ih]

theorem clauseReferences_eq (clauses : List Clause) :
    clauseReferences clauses = clauses.flatMap Clause.references := by
  induction clauses with
  | nil => rfl
  | cons c rest ih => rw [clauseReferences, List.flatMap_cons, ih]

theorem blockReferences_eq (body : List Stat) :
    blockReferences body = body.flatMap Stat.references := by
  induction body with
  | nil => rfl
  | cons s rest ih => rw [blockReferences, List.flatMap_cons, ih]

theorem Part.Holds.references {whole part : Part} {names : List String}
    (h : whole.Holds names part) {n : Name} (hn : n ∈ part.references) :
    n ∈ whole.references := by
  cases h <;>
    simp only [Part.references, Expr.references, Args.references, Field.references,
      Stat.references, Clause.references, optionReferences, exprReferences_eq,
      fieldReferences_eq, clauseReferences_eq, blockReferences_eq, List.mem_append,
      List.mem_flatMap, List.flatMap_append, List.flatMap_cons] at * <;>
    grind [Expr.references]

theorem Part.Within.references {whole part : Part} {names : List String}
    (h : whole.Within names part) {n : Name} (hn : n ∈ part.references) :
    n ∈ whole.references := by
  induction h with
  | whole => exact hn
  | step outer inner ih => exact ih (inner.references hn)

/-!
## Every reference is a part
-/

section Contained

variable {encoding : Encoding} {whole : Part} {n : Name}

theorem parameter_contained : {parameters : List Expr} → Parameters encoding parameters →
    n ∈ exprReferences parameters → Expr.name n ∈ parameters
  | .name _ :: _, h, hn => by
      rw [exprReferences, Expr.references, List.singleton_append, List.mem_cons] at hn
      cases hn with
      | inl heq => exact heq ▸ List.mem_cons_self
      | inr hn => exact List.mem_cons_of_mem _ (parameter_contained h.2 hn)
  | [.vararg ..], _, hn => by
      rw [exprReferences, Expr.references, exprReferences] at hn
      cases hn

mutual

theorem Expr.contained {callee : Bool} : (e : Expr) → e.WellFormed encoding callee →
    whole.Contains (.expr e) → n ∈ e.references → whole.Contains (.expr (.name n))
  | .name m, _, hin, hn => by
      rw [Expr.references, List.mem_singleton] at hn
      exact hn ▸ hin
  | .function parameters body, hwell, hin, hn => by
      rw [Expr.references, List.mem_append] at hn
      cases hn with
      | inl hn => exact hin.step (.parameter (parameter_contained hwell.1 hn))
      | inr hn => exact block_contained [] body hwell.2 (hin.step .functionBody) hn
  | .table fields, hwell, hin, hn =>
      fields_contained fields hwell (fun _ hf => hin.step (.tableField hf)) hn
  | .binary op left right, hwell, hin, hn => by
      rw [Expr.references, List.mem_append] at hn
      cases hn with
      | inl hn => exact left.contained hwell.1 (hin.step .left) hn
      | inr hn => exact right.contained hwell.2 (hin.step .right) hn
  | .unary op operand, hwell, hin, hn => operand.contained hwell (hin.step .operand) hn
  | .member base indexer m, hwell, hin, hn => base.contained hwell.2.2.1 (hin.step .memberBase) hn
  | .index base key, hwell, hin, hn => by
      rw [Expr.references, List.mem_append] at hn
      cases hn with
      | inl hn => exact base.contained hwell.2.1 (hin.step .indexBase) hn
      | inr hn => exact key.contained hwell.2.2 (hin.step .indexKey) hn
  | .call base arguments inParens line, hwell, hin, hn => by
      rw [Expr.references, List.mem_append] at hn
      cases hn with
      | inl hn => exact base.contained hwell.2.1 (hin.step .callBase) hn
      | inr hn => exact arguments.contained hwell.2.2 (hin.step .callArgs) hn

theorem Args.contained : (arguments : Args) → arguments.WellFormed encoding →
    whole.Contains (.args arguments) → n ∈ arguments.references →
    whole.Contains (.expr (.name n))
  | .list arguments, hwell, hin, hn =>
      exprs_contained arguments hwell (fun _ he => hin.step (.argument he)) hn
  | .table fields, hwell, hin, hn =>
      fields_contained fields hwell (fun _ hf => hin.step (.argumentField hf)) hn

theorem Field.contained : (f : Field) → f.WellFormed encoding →
    whole.Contains (.field f) → n ∈ f.references → whole.Contains (.expr (.name n))
  | .keyed key value, hwell, hin, hn => by
      rw [Field.references, List.mem_append] at hn
      cases hn with
      | inl hn => exact key.contained hwell.1 (hin.step .key) hn
      | inr hn => exact value.contained hwell.2 (hin.step .keyedValue) hn
  | .named m value, hwell, hin, hn => value.contained hwell.2 (hin.step .namedValue) hn
  | .positional value, hwell, hin, hn => value.contained hwell (hin.step .positionalValue) hn

theorem Stat.contained : (s : Stat) → s.WellFormed encoding →
    whole.Contains (.stat s) → n ∈ s.references → whole.Contains (.expr (.name n))
  | .ret values, hwell, hin, hn =>
      exprs_contained values hwell (fun _ he => hin.step (.returned he)) hn
  | .choice clauses, hwell, hin, hn =>
      clauses_contained clauses hwell.2 (fun _ hc => hin.step (.clause hc)) hn
  | .whileLoop condition body, hwell, hin, hn => by
      rw [Stat.references, List.mem_append] at hn
      cases hn with
      | inl hn => exact condition.contained hwell.1 (hin.step .whileCondition) hn
      | inr hn => exact block_contained [] body hwell.2 (hin.step .whileBody) hn
  | .block body, hwell, hin, hn => block_contained [] body hwell (hin.step .inner) hn
  | .repeatLoop body condition, hwell, hin, hn => by
      rw [Stat.references, List.mem_append] at hn
      cases hn with
      | inl hn => exact block_contained [] body hwell.1 (hin.step .repeatBody) hn
      | inr hn => exact condition.contained hwell.2 (hin.step .repeatCondition) hn
  | .locals vars values, hwell, hin, hn =>
      exprs_contained values hwell.2.2 (fun _ he => hin.step (.localValue he)) hn
  | .assign targets values, hwell, hin, hn => by
      rw [Stat.references, List.mem_append] at hn
      cases hn with
      | inl hn =>
          exact exprs_contained targets hwell.2.2.2.1 (fun _ he => hin.step (.target he)) hn
      | inr hn =>
          exact exprs_contained values hwell.2.2.2.2 (fun _ he => hin.step (.assigned he)) hn
  | .call e, hwell, hin, hn => e.contained hwell.2.2 (hin.step .called) hn
  | .function isLocal none parameters body, hwell, _, _ => by cases hwell.1
  | .function isLocal (some e) parameters body, hwell, hin, hn => by
      rw [Stat.references, List.mem_append, List.mem_append] at hn
      rcases functionName_wellFormed hwell.1 with ⟨name, hname, hcallee⟩
      cases hname
      rcases hn with (hn | hn) | hn
      · exact e.contained hcallee (hin.step .declaredName) hn
      · exact hin.step (.declaredParameter (parameter_contained hwell.2.1 hn))
      · exact block_contained [] body hwell.2.2 (hin.step .declaredBody) hn
  | .forRange counter first last none body, hwell, hin, hn => by
      rw [Stat.references, List.mem_append, List.mem_append, List.mem_append] at hn
      rcases hn with ((hn | hn) | hn) | hn
      · exact first.contained hwell.2.1 (hin.step .rangeFirst) hn
      · exact last.contained hwell.2.2.1 (hin.step .rangeLast) hn
      · cases hn
      · exact block_contained [] body hwell.2.2.2.2 (hin.step .rangeBody) hn
  | .forRange counter first last (some step) body, hwell, hin, hn => by
      rw [Stat.references, List.mem_append, List.mem_append, List.mem_append] at hn
      rcases hn with ((hn | hn) | hn) | hn
      · exact first.contained hwell.2.1 (hin.step .rangeFirst) hn
      · exact last.contained hwell.2.2.1 (hin.step .rangeLast) hn
      · exact step.contained hwell.2.2.2.1 (hin.step .rangeStep) hn
      · exact block_contained [] body hwell.2.2.2.2 (hin.step .rangeBody) hn
  | .forEach vars iterators body, hwell, hin, hn => by
      rw [Stat.references, List.mem_append] at hn
      cases hn with
      | inl hn =>
          exact exprs_contained iterators hwell.2.2.2.1 (fun _ he => hin.step (.iterator he)) hn
      | inr hn => exact block_contained [] body hwell.2.2.2.2 (hin.step .eachBody) hn

theorem Clause.contained : (c : Clause) → c.WellFormed encoding →
    whole.Contains (.clause c) → n ∈ c.references → whole.Contains (.expr (.name n))
  | .first condition body, hwell, hin, hn => by
      rw [Clause.references, List.mem_append] at hn
      cases hn with
      | inl hn => exact condition.contained hwell.1 (hin.step .firstCondition) hn
      | inr hn => exact block_contained [] body hwell.2 (hin.step .firstBody) hn
  | .next condition body, hwell, hin, hn => by
      rw [Clause.references, List.mem_append] at hn
      cases hn with
      | inl hn => exact condition.contained hwell.1 (hin.step .nextCondition) hn
      | inr hn => exact block_contained [] body hwell.2 (hin.step .nextBody) hn
  | .otherwise body, hwell, hin, hn => block_contained [] body hwell (hin.step .otherwiseBody) hn

theorem exprs_contained : (es : List Expr) → exprsWellFormed encoding es →
    (∀ e ∈ es, whole.Contains (.expr e)) → n ∈ exprReferences es →
    whole.Contains (.expr (.name n))
  | e :: rest, hwell, hin, hn => by
      rw [exprReferences, List.mem_append] at hn
      cases hn with
      | inl hn => exact e.contained hwell.1 (hin e List.mem_cons_self) hn
      | inr hn =>
          exact exprs_contained rest hwell.2
            (fun other hother => hin other (List.mem_cons_of_mem _ hother)) hn

theorem fields_contained : (fs : List Field) → fieldsWellFormed encoding fs →
    (∀ f ∈ fs, whole.Contains (.field f)) → n ∈ fieldReferences fs →
    whole.Contains (.expr (.name n))
  | f :: rest, hwell, hin, hn => by
      rw [fieldReferences, List.mem_append] at hn
      cases hn with
      | inl hn => exact f.contained hwell.1 (hin f List.mem_cons_self) hn
      | inr hn =>
          exact fields_contained rest hwell.2
            (fun other hother => hin other (List.mem_cons_of_mem _ hother)) hn

theorem block_contained (before : List Stat) : (body : List Stat) →
    blockWellFormed encoding body → whole.Contains (.block (before ++ body)) →
    n ∈ blockReferences body → whole.Contains (.expr (.name n))
  | s :: rest, hwell, hin, hn => by
      rw [blockReferences, List.mem_append] at hn
      cases hn with
      | inl hn => exact s.contained hwell.1 (hin.step .statement) hn
      | inr hn =>
          rw [List.append_cons] at hin
          exact block_contained (before ++ [s]) rest hwell.2.2 hin hn

theorem clauses_contained : (clauses : List Clause) → clausesWellFormed encoding clauses →
    (∀ c ∈ clauses, whole.Contains (.clause c)) → n ∈ clauseReferences clauses →
    whole.Contains (.expr (.name n))
  | c :: rest, hwell, hin, hn => by
      rw [clauseReferences, List.mem_append] at hn
      cases hn with
      | inl hn => exact c.contained hwell.1 (hin c List.mem_cons_self) hn
      | inr hn =>
          exact clauses_contained rest hwell.2
            (fun other hother => hin other (List.mem_cons_of_mem _ hother)) hn

end

end Contained

/-!
## Identifiers of a script
-/

/-- A script that parses: its identifiers are marked by Lua's scopes, the walk over its tree
meets just the names that stand as expressions in it, and its globals are the ones that are
not marked, each where it is met first. -/
theorem identifiers_scoped {encoding : Encoding} {source : List Char} {c : Chunk}
    (h : parse encoding source = .ok c) :
    (∀ names n, (Part.block c.body).Within names (.expr (.name n)) →
      (n.isLocal = true ↔ n.text ∈ names)) ∧
    (∀ n, n ∈ (Itinerary.run {} c.body).2.identifiers ↔
      ∃ names, (Part.block c.body).Within names (.expr (.name n))) ∧
    c.globals = (((Itinerary.run {} c.body).2.identifiers.filter fun n =>
      !n.isLocal).map Name.text).eraseDups := by
  rcases parse_ok h with ⟨lexemes, body, hlex, hprogram, _, hbody, hglobals⟩
  have hmet : (Itinerary.run {} c.body).2.identifiers = blockReferences c.body :=
    run_identifiers [] c.body
  have hwell : blockWellFormed .utf8 c.body := by
    have hsource : source.all (admits .utf8) = true := List.all_eq_true.mpr fun _ _ => rfl
    have hplain := plain_of_program (genuine_of_lex hsource hlex) hprogram
    rw [hbody, ← block_wellFormed_stripped, block_stripped_resolve, block_wellFormed_stripped]
    exact hplain.1
  constructor
  · intro names n hn
    rw [hbody] at hn
    exact isLocal_iff_of_within hn
  constructor
  · intro n
    rw [hmet]
    constructor
    · intro hn
      exact block_contained [] c.body hwell ⟨[], .whole⟩ hn
    · rintro ⟨names, hwithin⟩
      exact hwithin.references (List.mem_singleton_self n)
  · rw [hmet, hglobals, freeNames, addNew_nil]

/-- A script that shadows a global, and whose names are in scope in parts only. -/
def shadowing : List Char :=
  ("local x = x\nfunction t.f:g(a)\n  local function h() return h, self, a, b end\nend\n" ++
    "repeat local y = t until y\n").toList

theorem shadowing_scoped :
    ∃ c, parse .utf8 shadowing = .ok c ∧ c.globals = ["x", "t", "b"] ∧
      (∀ names n, (Part.block c.body).Within names (.expr (.name n)) →
        (n.isLocal = true ↔ n.text ∈ names)) ∧
      (∀ n, n ∈ (Itinerary.run {} c.body).2.identifiers ↔
        ∃ names, (Part.block c.body).Within names (.expr (.name n))) ∧
      c.globals = (((Itinerary.run {} c.body).2.identifiers.filter fun n =>
        !n.isLocal).map Name.text).eraseDups := by
  have hparse : ((parse .utf8 shadowing).toOption.any fun c =>
      c.globals == ["x", "t", "b"]) = true := by
    decide +kernel
  rcases exists_ok_of_any hparse with ⟨c, hc, hglobals⟩
  exact ⟨c, hc, beq_iff_eq.mp hglobals, identifiers_scoped hc⟩

end Lua
end LuaBundle
