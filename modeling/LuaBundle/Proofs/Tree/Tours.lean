import LuaBundle.Proofs.Tree.Renamed

/-!
# What a tour does

A tour meets the elements of a tree in reading order.  What it does when it meets one depends
on the ones before only through the tour itself, so the whole tour is a fold over what it
meets.  The tree it leaves has other names, and is the same otherwise.
-/

namespace LuaBundle
namespace Lua

/-!
## Along a row of events
-/

namespace Itinerary

variable (itinerary : Itinerary)

def meet (tour : Tour) : Event → Tour
  | .name n => (itinerary.meetName n tour).2
  | event => tour.record event

def meetAll (tour : Tour) (events : List Event) : Tour :=
  events.foldl itinerary.meet tour

def replaced (tour : Tour) : List Event → List Name
  | [] => []
  | event :: rest =>
      (event.name?.map fun n => (itinerary.meetName n tour).1).toList
        ++ replaced (itinerary.meet tour event) rest

theorem meetAll_append (tour : Tour) (front back : List Event) :
    itinerary.meetAll tour (front ++ back) =
      itinerary.meetAll (itinerary.meetAll tour front) back :=
  List.foldl_append

theorem replaced_append (tour : Tour) (front back : List Event) :
    itinerary.replaced tour (front ++ back) =
      itinerary.replaced tour front ++ itinerary.replaced (itinerary.meetAll tour front) back := by
  induction front generalizing tour with
  | nil => rfl
  | cons event rest ih =>
      rw [List.cons_append, replaced, replaced, ih, List.append_assoc]
      rfl

end Itinerary

/-!
## Elements that have become others
-/

/-- Elements that have become others by a walk: the same without names, and with these names. -/
structure Filled (before after : List Element) (names : List Name) : Prop where
  nameless : after.map Element.nameless = before.map Element.nameless
  names : after.flatMap Element.names = names

section Filled

variable {names : List Name}

theorem filled_nil : Filled [] [] [] :=
  ⟨rfl, rfl⟩

theorem filled_name (n n' : Name) : Filled [.name n] [.name n'] [n'] :=
  ⟨rfl, by simp⟩

theorem Filled.append {before after before' after' : List Element} {names' : List Name}
    (h : Filled before after names) (h' : Filled before' after' names') :
    Filled (before ++ before') (after ++ after') (names ++ names') where
  nameless := by rw [List.map_append, List.map_append, h.nameless, h'.nameless]
  names := by rw [List.flatMap_append, h.names, h'.names]

theorem Filled.part {p p' : Part} (h : Filled p.elements p'.elements names)
    (hless : p'.renamed unnamed = p.renamed unnamed) : Filled [.part p] [.part p'] names where
  nameless := by rw [List.map_singleton, Element.nameless, Element.renamed, hless]; rfl
  names := by rw [List.flatMap_singleton, Element.names_part, h.names]

theorem Filled.part_nameless {p p' : Part} (h : Filled [.part p] [.part p'] names) :
    p'.renamed unnamed = p.renamed unnamed :=
  Element.part.inj (List.cons.inj h.nameless).1

theorem Filled.expr_nameless {e e' : Expr} (h : Filled [.part (.expr e)] [.part (.expr e')] names) :
    e'.renamed unnamed = e.renamed unnamed :=
  Part.expr.inj h.part_nameless

theorem Filled.block_nameless {body body' : List Stat}
    (h : Filled [.part (.block body)] [.part (.block body')] names) :
    renamedBlock unnamed body' = renamedBlock unnamed body :=
  Part.block.inj h.part_nameless

theorem Filled.args_nameless {arguments arguments' : Args}
    (h : Filled [.part (.args arguments)] [.part (.args arguments')] names) :
    arguments'.renamed unnamed = arguments.renamed unnamed :=
  Part.args.inj h.part_nameless

theorem Filled.exprs_nameless {es es' : List Expr}
    (h : Filled (exprElements es) (exprElements es') names) :
    renamedExprs unnamed es' = renamedExprs unnamed es := by
  have hless := h.nameless
  unfold Element.nameless at hless
  rwa [← renamed_exprElements, ← renamed_exprElements, exprElements_inj] at hless

theorem Filled.fields_nameless {fs fs' : List Field}
    (h : Filled (fieldElements fs) (fieldElements fs') names) :
    renamedFields unnamed fs' = renamedFields unnamed fs := by
  have hless := h.nameless
  unfold Element.nameless at hless
  rwa [← renamed_fieldElements, ← renamed_fieldElements, fieldElements_inj] at hless

theorem Filled.clauses_nameless {clauses clauses' : List Clause}
    (h : Filled (clauseElements clauses) (clauseElements clauses') names) :
    renamedClauses unnamed clauses' = renamedClauses unnamed clauses := by
  have hless := h.nameless
  unfold Element.nameless at hless
  rwa [← renamed_clauseElements, ← renamed_clauseElements, clauseElements_inj] at hless

theorem Filled.names_nameless {ns ns' : List Name}
    (h : Filled (nameElements ns) (nameElements ns') names) :
    ns'.map unnamed = ns.map unnamed := by
  have hless := h.nameless
  unfold Element.nameless at hless
  rwa [← renamed_nameElements, ← renamed_nameElements, nameElements_inj] at hless

theorem Filled.option_nameless {o o' : Option Expr}
    (h : Filled (exprElements o.toList) (exprElements o'.toList) names) :
    renamedOption unnamed o' = renamedOption unnamed o := by
  cases o <;> cases o' <;> first | rfl | cases h.nameless | exact congrArg some h.expr_nameless

theorem Filled.block {body body' : List Stat}
    (h : Filled (blockElements body) (blockElements body') names) :
    Filled [.part (.block body)] [.part (.block body')] names := by
  have hless := h.nameless
  unfold Element.nameless at hless
  rw [← renamed_blockElements, ← renamed_blockElements, blockElements_inj] at hless
  exact Filled.part h (congrArg Part.block hless)

theorem Filled.block_unique {body first second : List Stat}
    (h : Filled (blockElements body) (blockElements first) names)
    (h' : Filled (blockElements body) (blockElements second) names) : first = second := by
  -- A tree is what it is without names, with its names in order.
  have hless := h.block.nameless.trans h'.block.nameless.symm
  have hnames := h.block.names.trans h'.block.names.symm
  rw [List.flatMap_singleton, List.flatMap_singleton] at hnames
  exact Part.block.inj (Element.part.inj (Element.eq_of_names (List.cons.inj hless).1 hnames))

theorem filled_renamed (f : Name → Name) (body : List Stat) :
    Filled (blockElements body) (blockElements (renamedBlock f body))
      ((Element.part (.block body)).names.map f) where
  nameless := by
    rw [renamed_blockElements, List.map_map]
    exact List.map_congr_left fun x _ => x.nameless_renamed f
  names := by
    rw [renamed_blockElements, List.flatMap_map, Element.names_part, List.map_flatMap]
    exact List.flatMap_congr fun x _ => x.names_renamed f

end Filled

/-!
## Over a tree
-/

/-- A part of a walk, which goes over elements and gives what it makes of them. -/
def Tours {α : Type} (itinerary : Itinerary) (act : StateM Tour α) (elements : List Element)
    (gives : α → List Name → Prop) : Prop :=
  ∀ tour : Tour,
    (act.run tour).2 = itinerary.meetAll tour (elements.flatMap Element.events) ∧
      gives (act.run tour).1 (itinerary.replaced tour (elements.flatMap Element.events))

section Tours

variable {α β : Type} {itinerary : Itinerary} {elements more : List Element}

theorem tours_pure {gives : α → List Name → Prop} {a : α} (h : gives a []) :
    Tours itinerary (pure a) [] gives :=
  fun _ => ⟨rfl, h⟩

theorem Tours.bind {act : StateM Tour α} {next : α → StateM Tour β}
    {gives : α → List Name → Prop} {gives' : β → List Name → Prop}
    (h : Tours itinerary act elements gives)
    (hnext : ∀ a names, gives a names →
      Tours itinerary (next a) more fun b names' => gives' b (names ++ names')) :
    Tours itinerary (act >>= next) (elements ++ more) gives' := by
  intro tour
  rcases h tour with ⟨hmid, hgives⟩
  rcases hnext _ _ hgives (act.run tour).2 with ⟨hlast, hgives'⟩
  rw [List.flatMap_append, itinerary.meetAll_append, itinerary.replaced_append, ← hmid]
  exact ⟨hlast, hgives'⟩

theorem Tours.build {act : StateM Tour α} {f : α → β} {gives : α → List Name → Prop}
    {gives' : β → List Name → Prop} (h : Tours itinerary act elements gives)
    (hf : ∀ a names, gives a names → gives' (f a) names) :
    Tours itinerary (act >>= fun a => pure (f a)) elements gives' :=
  fun tour => ⟨(h tour).1, hf _ _ (h tour).2⟩

theorem tours_name (n : Name) :
    Tours itinerary (itinerary.visitor.name n) [.name n] fun n' names =>
      Filled [.name n] [.name n'] names := by
  intro tour
  have hevents : [Element.name n].flatMap Element.events = [.name n] := by
    rw [List.flatMap_singleton, Element.events_eq]
    rfl
  rw [hevents]
  exact ⟨rfl, filled_name n _⟩

theorem Tours.quiet {act : StateM Tour α} {gives : α → List Name → Prop} {x : Element}
    (h : Tours itinerary act x.elements gives) (hx : x.event? = none) :
    Tours itinerary act [x] gives := by
  have hevents : [x].flatMap Element.events = x.elements.flatMap Element.events := by
    rw [List.flatMap_singleton, Element.events_eq, hx]
    rfl
  unfold Tours
  rw [hevents]
  exact h

theorem Tours.told {hook : StateM Tour β} {next : β → StateM Tour α} {b : β}
    {gives : α → List Name → Prop} {x : Element} {event : Event} (hx : x.event? = some event)
    (hname : event.name? = none)
    (hhook : ∀ tour, hook.run tour = (b, itinerary.meet tour event))
    (h : Tours itinerary (next b) x.elements gives) :
    Tours itinerary (hook >>= next) [x] gives := by
  have hevents : [x].flatMap Element.events = event :: x.elements.flatMap Element.events := by
    rw [List.flatMap_singleton, Element.events_eq, hx]
    rfl
  intro tour
  have hrun : (hook >>= next).run tour = (next b).run (itinerary.meet tour event) := by
    change (next (hook.run tour).1).run (hook.run tour).2 = _
    rw [hhook]
  rw [hevents, hrun, Itinerary.replaced, hname]
  exact h (itinerary.meet tour event)

theorem Tours.expression {e : Expr} {next : Option Expr → StateM Tour α}
    {gives : α → List Name → Prop} (h : Tours itinerary (next none) e.elements gives) :
    Tours itinerary (itinerary.visitor.expression e >>= next) [.part (.expr e)] gives :=
  Tours.told rfl rfl (fun _ => rfl) h

theorem Tours.statement {s : Stat} {next : PUnit → StateM Tour α}
    {gives : α → List Name → Prop} (h : Tours itinerary (next ⟨⟩) s.elements gives) :
    Tours itinerary (itinerary.visitor.statement s >>= next) [.part (.stat s)] gives :=
  Tours.told rfl rfl (fun _ => rfl) h

theorem Tours.body {body : List Stat} {next : List Stat → StateM Tour α}
    {gives : α → List Name → Prop}
    (h : Tours itinerary (walkBlock itinerary.visitor body) (blockElements body)
      fun body' names => Filled (blockElements body) (blockElements body') names)
    (hnext : ∀ body' names, Filled [.part (.block body)] [.part (.block body')] names →
      Tours itinerary (next body') more fun a names' => gives a (names ++ names')) :
    Tours itinerary
      (itinerary.visitor.block body >>= fun _ => walkBlock itinerary.visitor body >>= next)
      ([.part (.block body)] ++ more) gives := by
  have hbody : Tours itinerary
      (itinerary.visitor.block body >>= fun _ => walkBlock itinerary.visitor body)
      [.part (.block body)]
      fun body' names => Filled [.part (.block body)] [.part (.block body')] names :=
    Tours.told rfl rfl (fun _ => rfl) fun tour => ⟨(h tour).1, (h tour).2.block⟩
  exact hbody.bind hnext

theorem Tours.lastBody {body : List Stat} {f : List Stat → α} {gives : α → List Name → Prop}
    (h : Tours itinerary (walkBlock itinerary.visitor body) (blockElements body)
      fun body' names => Filled (blockElements body) (blockElements body') names)
    (hf : ∀ body' names, Filled [.part (.block body)] [.part (.block body')] names →
      gives (f body') names) :
    Tours itinerary
      (itinerary.visitor.block body >>= fun _ =>
        walkBlock itinerary.visitor body >>= fun body' => pure (f body'))
      [.part (.block body)] gives :=
  Tours.body h fun body' names hbody =>
    tours_pure (by rw [List.append_nil]; exact hf body' names hbody)

theorem names_tour (names : List Name) :
    Tours itinerary (names.mapM itinerary.visitor.name) (nameElements names)
      fun names' given => Filled (nameElements names) (nameElements names') given := by
  induction names with
  | nil =>
      rw [List.mapM_nil]
      exact tours_pure filled_nil
  | cons n rest ih =>
      rw [List.mapM_cons]
      exact (tours_name n).bind fun n' _ hn => ih.build fun rest' _ hrest => hn.append hrest

theorem vars_tour (vars : List LocalVar) :
    Tours itinerary
      (vars.mapM fun x => do return { x with name := ← itinerary.visitor.name x.name })
      (nameElements (vars.map LocalVar.name)) fun vars' given =>
        vars'.map (LocalVar.renamed unnamed) = vars.map (LocalVar.renamed unnamed) ∧
          Filled (nameElements (vars.map LocalVar.name)) (nameElements (vars'.map LocalVar.name))
            given := by
  induction vars with
  | nil =>
      rw [List.mapM_nil]
      exact tours_pure ⟨rfl, filled_nil⟩
  | cons v rest ih =>
      rw [List.mapM_cons]
      have hv : Tours itinerary (do return { v with name := ← itinerary.visitor.name v.name })
          [.name v.name] fun v' given =>
            v'.renamed unnamed = v.renamed unnamed ∧ Filled [.name v.name] [.name v'.name] given :=
        (tours_name v.name).build fun n' _ hn => ⟨rfl, hn⟩
      exact hv.bind fun v' _ hv => ih.build fun rest' _ hrest =>
        ⟨by rw [List.map_cons, List.map_cons, hv.1, hrest.1], hv.2.append hrest.2⟩

mutual

theorem Expr.tours : (e : Expr) → Tours itinerary (e.walk itinerary.visitor) [.part (.expr e)]
    fun e' names => Filled [.part (.expr e)] [.part (.expr e')] names
  | .name n => by
      rw [Expr.walk]
      exact Tours.expression ((tours_name n).build fun n' _ hn => Filled.part hn rfl)
  | .string literal => by
      rw [Expr.walk]
      exact Tours.expression (tours_pure (Filled.part filled_nil rfl))
  | .number numeral line => by
      rw [Expr.walk]
      exact Tours.expression (tours_pure (Filled.part filled_nil rfl))
  | .boolean value => by
      rw [Expr.walk]
      exact Tours.expression (tours_pure (Filled.part filled_nil rfl))
  | .nil => by
      rw [Expr.walk]
      exact Tours.expression (tours_pure (Filled.part filled_nil rfl))
  | .vararg inParens line => by
      rw [Expr.walk]
      exact Tours.expression (tours_pure (Filled.part filled_nil rfl))
  | .function parameters body => by
      rw [Expr.walk]
      refine Tours.expression ((exprs_tour parameters).bind fun parameters' _ hparameters => ?_)
      refine Tours.lastBody (block_tours body) fun body' _ hbody => ?_
      refine Filled.part (hparameters.append hbody) ?_
      simp only [Part.renamed, Expr.renamed, hparameters.exprs_nameless, hbody.block_nameless]
  | .table fields => by
      rw [Expr.walk]
      refine Tours.expression ((fields_tour fields).build fun fields' _ hfields => ?_)
      refine Filled.part hfields ?_
      simp only [Part.renamed, Expr.renamed, hfields.fields_nameless]
  | .binary op left right => by
      rw [Expr.walk]
      refine Tours.expression (left.tours.bind fun left' _ hleft => ?_)
      refine right.tours.build fun right' _ hright => Filled.part (hleft.append hright) ?_
      simp only [Part.renamed, Expr.renamed, hleft.expr_nameless, hright.expr_nameless]
  | .unary op operand => by
      rw [Expr.walk]
      refine Tours.expression (operand.tours.build fun operand' _ hoperand => ?_)
      refine Filled.part hoperand ?_
      simp only [Part.renamed, Expr.renamed, hoperand.expr_nameless]
  | .member base indexer n => by
      rw [Expr.walk]
      refine Tours.expression (base.tours.bind fun base' _ hbase => ?_)
      refine (tours_name n).build fun n' _ hn => Filled.part (hbase.append hn) ?_
      simp only [Part.renamed, Expr.renamed, hbase.expr_nameless, unnamed]
  | .index base key => by
      rw [Expr.walk]
      refine Tours.expression (base.tours.bind fun base' _ hbase => ?_)
      refine key.tours.build fun key' _ hkey => Filled.part (hbase.append hkey) ?_
      simp only [Part.renamed, Expr.renamed, hbase.expr_nameless, hkey.expr_nameless]
  | .call base arguments inParens line => by
      rw [Expr.walk]
      refine Tours.expression (base.tours.bind fun base' _ hbase => ?_)
      refine arguments.tours.build fun arguments' _ harguments => ?_
      refine Filled.part (hbase.append harguments) ?_
      simp only [Part.renamed, Expr.renamed, hbase.expr_nameless, harguments.args_nameless]

theorem Args.tours : (arguments : Args) →
    Tours itinerary (arguments.walk itinerary.visitor) [.part (.args arguments)]
      fun arguments' names => Filled [.part (.args arguments)] [.part (.args arguments')] names
  | .list arguments => by
      rw [Args.walk]
      refine Tours.quiet ((exprs_tour arguments).build fun es' _ hes => Filled.part hes ?_) rfl
      simp only [Part.renamed, Args.renamed, hes.exprs_nameless]
  | .table fields => by
      rw [Args.walk]
      refine Tours.quiet ((fields_tour fields).build fun fields' _ hfields => ?_) rfl
      refine Filled.part hfields ?_
      simp only [Part.renamed, Args.renamed, hfields.fields_nameless]
  | .string literal => by
      rw [Args.walk]
      exact Tours.quiet (tours_pure (Filled.part filled_nil rfl)) rfl

theorem Field.tours : (f : Field) →
    Tours itinerary (f.walk itinerary.visitor) [.part (.field f)]
      fun f' names => Filled [.part (.field f)] [.part (.field f')] names
  | .keyed key value => by
      rw [Field.walk]
      refine Tours.quiet (key.tours.bind fun key' _ hkey => ?_) rfl
      refine value.tours.build fun value' _ hvalue => Filled.part (hkey.append hvalue) ?_
      simp only [Part.renamed, Field.renamed, hkey.expr_nameless, hvalue.expr_nameless]
  | .named n value => by
      rw [Field.walk]
      refine Tours.quiet ((tours_name n).bind fun n' _ hn => ?_) rfl
      refine value.tours.build fun value' _ hvalue => Filled.part (hn.append hvalue) ?_
      simp only [Part.renamed, Field.renamed, hvalue.expr_nameless, unnamed]
  | .positional value => by
      rw [Field.walk]
      refine Tours.quiet (value.tours.build fun value' _ hvalue => Filled.part hvalue ?_) rfl
      simp only [Part.renamed, Field.renamed, hvalue.expr_nameless]

theorem Stat.tours : (s : Stat) → Tours itinerary (s.walk itinerary.visitor) [.part (.stat s)]
    fun s' names => Filled [.part (.stat s)] [.part (.stat s')] names
  | .label n => by
      rw [Stat.walk]
      exact Tours.statement ((tours_name n).build fun n' _ hn => Filled.part hn rfl)
  | .goto n => by
      rw [Stat.walk]
      exact Tours.statement ((tours_name n).build fun n' _ hn => Filled.part hn rfl)
  | .leave => by
      rw [Stat.walk]
      exact Tours.statement (tours_pure (Filled.part filled_nil rfl))
  | .ret values => by
      rw [Stat.walk]
      refine Tours.statement ((exprs_tour values).build fun values' _ hvalues => ?_)
      refine Filled.part hvalues ?_
      simp only [Part.renamed, Stat.renamed, hvalues.exprs_nameless]
  | .choice clauses => by
      rw [Stat.walk]
      refine Tours.statement ((clauses_tour clauses).build fun clauses' _ hclauses => ?_)
      refine Filled.part hclauses ?_
      simp only [Part.renamed, Stat.renamed, hclauses.clauses_nameless]
  | .whileLoop condition body => by
      rw [Stat.walk]
      refine Tours.statement (condition.tours.bind fun condition' _ hcondition => ?_)
      refine Tours.lastBody (block_tours body) fun body' _ hbody => ?_
      refine Filled.part (hcondition.append hbody) ?_
      simp only [Part.renamed, Stat.renamed, hcondition.expr_nameless, hbody.block_nameless]
  | .block body => by
      rw [Stat.walk]
      refine Tours.statement (Tours.lastBody (block_tours body) fun body' _ hbody => ?_)
      refine Filled.part hbody ?_
      simp only [Part.renamed, Stat.renamed, hbody.block_nameless]
  | .repeatLoop body condition => by
      rw [Stat.walk]
      refine Tours.statement (Tours.body (block_tours body) fun body' _ hbody => ?_)
      refine condition.tours.build fun condition' _ hcondition => ?_
      refine Filled.part (hbody.append hcondition) ?_
      simp only [Part.renamed, Stat.renamed, hcondition.expr_nameless, hbody.block_nameless]
  | .locals vars values => by
      rw [Stat.walk]
      refine Tours.statement ((vars_tour vars).bind fun vars' _ hvars => ?_)
      refine (exprs_tour values).build fun values' _ hvalues => ?_
      refine Filled.part (hvars.2.append hvalues) ?_
      simp only [Part.renamed, Stat.renamed, hvars.1, hvalues.exprs_nameless]
  | .assign targets values => by
      rw [Stat.walk]
      refine Tours.statement ((exprs_tour targets).bind fun targets' _ htargets => ?_)
      refine (exprs_tour values).build fun values' _ hvalues => ?_
      refine Filled.part (htargets.append hvalues) ?_
      simp only [Part.renamed, Stat.renamed, htargets.exprs_nameless, hvalues.exprs_nameless]
  | .call e => by
      rw [Stat.walk]
      refine Tours.statement (e.tours.build fun e' _ he => Filled.part he ?_)
      simp only [Part.renamed, Stat.renamed, he.expr_nameless]
  | .function isLocal name parameters body => by
      rw [Stat.walk]
      refine Tours.statement ((option_tours name).bind fun name' _ hname => ?_)
      refine (exprs_tour parameters).bind fun parameters' _ hparameters => ?_
      refine Tours.lastBody (block_tours body) fun body' _ hbody => ?_
      refine Filled.part (hname.append (hparameters.append hbody)) ?_
      simp only [Part.renamed, Stat.renamed, hname.option_nameless, hparameters.exprs_nameless,
        hbody.block_nameless]
  | .forRange counter first last step body => by
      rw [Stat.walk]
      refine Tours.statement ((tours_name counter).bind fun counter' _ hcounter => ?_)
      refine first.tours.bind fun first' _ hfirst => ?_
      refine last.tours.bind fun last' _ hlast => ?_
      refine (option_tours step).bind fun step' _ hstep => ?_
      refine Tours.lastBody (block_tours body) fun body' _ hbody => ?_
      refine Filled.part (hcounter.append (hfirst.append (hlast.append (hstep.append hbody)))) ?_
      simp only [Part.renamed, Stat.renamed, hfirst.expr_nameless, hlast.expr_nameless,
        hstep.option_nameless, hbody.block_nameless, unnamed]
  | .forEach vars iterators body => by
      rw [Stat.walk]
      refine Tours.statement ((names_tour vars).bind fun vars' _ hvars => ?_)
      refine (exprs_tour iterators).bind fun iterators' _ hiterators => ?_
      refine Tours.lastBody (block_tours body) fun body' _ hbody => ?_
      refine Filled.part (hvars.append (hiterators.append hbody)) ?_
      simp only [Part.renamed, Stat.renamed, hvars.names_nameless, hiterators.exprs_nameless,
        hbody.block_nameless]

theorem Clause.tours : (c : Clause) →
    Tours itinerary (c.walk itinerary.visitor) [.part (.clause c)]
      fun c' names => Filled [.part (.clause c)] [.part (.clause c')] names
  | .first condition body => by
      rw [Clause.walk]
      refine Tours.quiet (condition.tours.bind fun condition' _ hcondition => ?_) rfl
      refine Tours.lastBody (block_tours body) fun body' _ hbody => ?_
      refine Filled.part (hcondition.append hbody) ?_
      simp only [Part.renamed, Clause.renamed, hcondition.expr_nameless, hbody.block_nameless]
  | .next condition body => by
      rw [Clause.walk]
      refine Tours.quiet (condition.tours.bind fun condition' _ hcondition => ?_) rfl
      refine Tours.lastBody (block_tours body) fun body' _ hbody => ?_
      refine Filled.part (hcondition.append hbody) ?_
      simp only [Part.renamed, Clause.renamed, hcondition.expr_nameless, hbody.block_nameless]
  | .otherwise body => by
      rw [Clause.walk]
      refine Tours.quiet (Tours.lastBody (block_tours body) fun body' _ hbody => ?_) rfl
      refine Filled.part hbody ?_
      simp only [Part.renamed, Clause.renamed, hbody.block_nameless]

theorem option_tours : (o : Option Expr) →
    Tours itinerary (walkOption itinerary.visitor o) (exprElements o.toList)
      fun o' names => Filled (exprElements o.toList) (exprElements o'.toList) names
  | none => by
      rw [walkOption]
      exact tours_pure filled_nil
  | some e => by
      rw [walkOption]
      exact e.tours.build fun e' _ he => he

theorem exprs_tour : (es : List Expr) →
    Tours itinerary (walkExprs itinerary.visitor es) (exprElements es)
      fun es' names => Filled (exprElements es) (exprElements es') names
  | [] => by
      rw [walkExprs]
      exact tours_pure filled_nil
  | e :: rest => by
      rw [walkExprs]
      exact e.tours.bind fun e' _ he => (exprs_tour rest).build fun rest' _ hrest =>
        he.append hrest

theorem fields_tour : (fs : List Field) →
    Tours itinerary (walkFields itinerary.visitor fs) (fieldElements fs)
      fun fs' names => Filled (fieldElements fs) (fieldElements fs') names
  | [] => by
      rw [walkFields]
      exact tours_pure filled_nil
  | f :: rest => by
      rw [walkFields]
      exact f.tours.bind fun f' _ hf => (fields_tour rest).build fun rest' _ hrest =>
        hf.append hrest

theorem block_tours : (body : List Stat) →
    Tours itinerary (walkBlock itinerary.visitor body) (blockElements body)
      fun body' names => Filled (blockElements body) (blockElements body') names
  | [] => by
      rw [walkBlock]
      exact tours_pure filled_nil
  | s :: rest => by
      rw [walkBlock]
      exact s.tours.bind fun s' _ hs => (block_tours rest).build fun rest' _ hrest =>
        hs.append hrest

theorem clauses_tour : (clauses : List Clause) →
    Tours itinerary (walkClauses itinerary.visitor clauses) (clauseElements clauses)
      fun clauses' names => Filled (clauseElements clauses) (clauseElements clauses') names
  | [] => by
      rw [walkClauses]
      exact tours_pure filled_nil
  | c :: rest => by
      rw [walkClauses]
      exact c.tours.bind fun c' _ hc => (clauses_tour rest).build fun rest' _ hrest =>
        hc.append hrest

end

end Tours

/-!
## Whole tours
-/

/-- A tour over a script meets the elements of its statements, and fills them with the names
that it puts in the place of theirs. -/
theorem run_tours (itinerary : Itinerary) (body : List Stat) :
    (itinerary.run body).2 =
        itinerary.meetAll {} ((blockElements body).flatMap Element.events) ∧
      Filled (blockElements body) (blockElements (itinerary.run body).1)
        (itinerary.replaced {} ((blockElements body).flatMap Element.events)) :=
  block_tours body {}

theorem block_names (body : List Stat) :
    (Element.part (.block body)).names =
      ((blockElements body).flatMap Element.events).filterMap Event.name? := by
  rw [Element.names_part, List.filterMap_flatMap]
  exact List.flatMap_congr fun x _ => x.names_eq

namespace Itinerary

section Stops

variable {itinerary : Itinerary} {tour : Tour}

theorem meetName_going {n : Name} (htour : tour.stoppedAt = none)
    (hn : itinerary.stop ≠ some n.text) :
    itinerary.meetName n tour = (itinerary.rename n, tour.record (.name n)) := by
  rw [meetName, htour, if_neg (by simp), if_neg hn]

theorem meetName_stops {n : Name} (htour : tour.stoppedAt = none)
    (hn : itinerary.stop = some n.text) :
    itinerary.meetName n tour =
      (n, { events := .name n :: tour.events, stoppedAt := some n.text }) := by
  rw [meetName, htour, if_neg (by simp), if_pos hn, Tour.record, htour]
  rfl

theorem record_going (event : Event) (htour : tour.stoppedAt = none) :
    tour.record event = { tour with events := event :: tour.events } := by
  rw [Tour.record, htour]
  rfl

/-- A tour that meets no name to stop at meets everything and renames all names. -/
theorem meetAll_going {events : List Event} (htour : tour.stoppedAt = none)
    (hnames : ∀ n, .name n ∈ events → itinerary.stop ≠ some n.text) :
    itinerary.meetAll tour events = { tour with events := events.reverse ++ tour.events } ∧
      itinerary.replaced tour events = (events.filterMap Event.name?).map itinerary.rename := by
  induction events generalizing tour with
  | nil => exact ⟨rfl, rfl⟩
  | cons event rest ih =>
      have hmeet : itinerary.meet tour event = { tour with events := event :: tour.events } ∧
          (event.name?.map fun n => (itinerary.meetName n tour).1) =
            event.name?.map itinerary.rename := by
        cases event with
        | name n =>
            rw [meet, Event.name?, Option.map_some,
              meetName_going htour (hnames n List.mem_cons_self), record_going _ htour]
            exact ⟨rfl, rfl⟩
        | _ => exact ⟨record_going _ htour, rfl⟩
      have hrest := @ih { tour with events := event :: tour.events } htour
        fun n hn => hnames n (List.mem_cons_of_mem _ hn)
      rw [meetAll, List.foldl_cons, ← meetAll, replaced, hmeet.1, hmeet.2, hrest.1, hrest.2]
      constructor
      · rw [List.reverse_cons, List.append_assoc, List.singleton_append]
      · cases hname : event.name? <;> simp [hname]

theorem meetAll_stopped (htour : tour.stoppedAt.isSome) (events : List Event) :
    itinerary.meetAll tour events = tour ∧
      itinerary.replaced tour events = events.filterMap Event.name? := by
  have hrecord (event : Event) : tour.record event = tour := by
    rw [Tour.record, if_neg (by simp [Option.isSome_iff_ne_none.mp htour])]
  have hname (n : Name) : itinerary.meetName n tour = (n, tour) := if_pos htour
  induction events with
  | nil => exact ⟨rfl, rfl⟩
  | cons event rest ih =>
      have hmeet : itinerary.meet tour event = tour := by
        cases event with
        | name n => rw [meet, hname]
        | _ => exact hrecord _
      rw [meetAll, List.foldl_cons, hmeet, replaced, hmeet, ih.2]
      refine ⟨ih.1, ?_⟩
      cases event with
      | name n => exact congrArg (fun found : Name × Tour => found.1 :: _) (hname n)
      | _ => rfl

theorem meetAll_cut {n : Name} {front back : List Event} (htour : tour.stoppedAt = none)
    (hfront : ∀ m, .name m ∈ front → itinerary.stop ≠ some m.text)
    (hn : itinerary.stop = some n.text) :
    itinerary.meetAll tour (front ++ .name n :: back) =
        { events := .name n :: (front.reverse ++ tour.events), stoppedAt := some n.text } ∧
      itinerary.replaced tour (front ++ .name n :: back) =
        (front.filterMap Event.name?).map itinerary.rename ++ n :: back.filterMap Event.name? := by
  have hgoing := meetAll_going htour hfront
  have hstops := @meetName_stops itinerary
    { tour with events := front.reverse ++ tour.events } n htour hn
  rw [itinerary.meetAll_append, itinerary.replaced_append, hgoing.1, hgoing.2, meetAll,
    List.foldl_cons, replaced, meet, Event.name?, Option.map_some, hstops]
  have hstopped := @meetAll_stopped itinerary
    { events := .name n :: (front.reverse ++ tour.events), stoppedAt := some n.text } rfl back
  exact ⟨hstopped.1, by rw [hstopped.2]; rfl⟩

end Stops

end Itinerary

/-- A tour that renames nothing and does not stop: what it met, and the tree as it was. -/
theorem run_recording (body : List Stat) :
    (Itinerary.run {} body).1 = body ∧
      (Itinerary.run {} body).2.events.reverse =
        (blockElements body).flatMap Element.events := by
  have hrun := run_tours {} body
  have hgoing := @Itinerary.meetAll_going {} {} ((blockElements body).flatMap Element.events) rfl
    fun _ _ => nofun
  have hsame : Itinerary.rename {} = id := rfl
  rw [hgoing.1, hgoing.2, ← block_names, hsame, List.map_id] at hrun
  refine ⟨hrun.2.block_unique ⟨rfl, (Element.names_part (.block body)).symm⟩, ?_⟩
  rw [hrun.1, List.append_nil, List.reverse_reverse]

theorem first_name_cases (text : String) (events : List Event) :
    (∀ n, .name n ∈ events → n.text ≠ text) ∨
      ∃ front n back, events = front ++ .name n :: back ∧ n.text = text ∧
        ∀ m, .name m ∈ front → m.text ≠ text := by
  induction events with
  | nil => exact .inl fun _ => nofun
  | cons event rest ih =>
      by_cases hevent : ∃ n, event = .name n ∧ n.text = text
      · rcases hevent with ⟨n, rfl, hn⟩
        exact .inr ⟨[], n, rest, rfl, hn, fun _ => nofun⟩
      · have hfirst : ∀ m, .name m = event → m.text ≠ text := fun m hm heq =>
          hevent ⟨m, hm.symm, heq⟩
        rcases ih with hrest | ⟨front, n, back, rfl, hn, hfront⟩
        · exact .inl fun m hm => (List.mem_cons.mp hm).elim (hfirst m) (hrest m)
        · exact .inr ⟨event :: front, n, back, rfl, hn,
            fun m hm => (List.mem_cons.mp hm).elim (hfirst m) (hfront m)⟩

theorem mem_names_told {events : List Event} {n : Name} :
    n ∈ events.filterMap Event.name? ↔ .name n ∈ events := by
  rw [List.mem_filterMap]
  constructor
  · rintro ⟨event, hevent, hname⟩
    cases event <;> cases hname
    exact hevent
  · exact fun h => ⟨.name n, h, rfl⟩

/-- A tour that renames and stops at a name, beside the same one without the stop, which
renames the whole tree.  The tour stops just when the tree has the name.  It has then met what
the other one meets up to the first such name, and the tree that it leaves has the names before
that one renamed and is otherwise the same. -/
theorem stop_cuts_tour (renamings : List (String × String)) (stop : String) (body : List Stat) :
    let rename := (Itinerary.mk renamings none).rename
    let whole := Itinerary.run ⟨renamings, none⟩ body
    let cut := Itinerary.run ⟨renamings, some stop⟩ body
    whole.1 = renamedBlock rename body ∧ whole.2.stoppedAt = none ∧
      (cut.2.stoppedAt = none ↔ ∀ n ∈ (Element.part (.block body)).names, n.text ≠ stop) ∧
      (cut.2.stoppedAt = none → cut = whole) ∧
      (cut.2.stoppedAt ≠ none → ∃ front n back,
        whole.2.events.reverse = front ++ .name n :: back ∧
          n.text = stop ∧ (∀ m, .name m ∈ front → m.text ≠ stop) ∧
          cut.2.events.reverse = front ++ [.name n] ∧
          (Element.part (.block cut.1)).nameless = (Element.part (.block body)).nameless ∧
          (Element.part (.block body)).names =
            front.filterMap Event.name? ++ n :: back.filterMap Event.name? ∧
          (Element.part (.block cut.1)).names =
            (front.filterMap Event.name?).map rename ++ n :: back.filterMap Event.name?) := by
  intro rename whole cut
  have hwhole := run_tours ⟨renamings, none⟩ body
  have hcut := run_tours ⟨renamings, some stop⟩ body
  have hnames := block_names body
  generalize (blockElements body).flatMap Element.events = events at hwhole hcut hnames
  have hgoing := @Itinerary.meetAll_going ⟨renamings, none⟩ {} events rfl fun n _ => nofun
  rw [hgoing.1, hgoing.2, ← hnames] at hwhole
  have hall : whole.1 = renamedBlock rename body := hwhole.2.block_unique (filled_renamed _ body)
  have htold : whole.2.events.reverse = events := by
    rw [show whole.2 = _ from hwhole.1, List.append_nil, List.reverse_reverse]
  have hwent : whole.2.stoppedAt = none := by rw [show whole.2 = _ from hwhole.1]
  rw [htold, hnames]
  refine ⟨hall, hwent, ?_⟩
  rcases first_name_cases stop events with hnone | ⟨front, n, back, rfl, hn, hfront⟩
  -- Without the name both tours do the same.
  · have hsame := @Itinerary.meetAll_going ⟨renamings, some stop⟩ {} events rfl
      fun n hn heq => hnone n hn (Option.some.inj heq).symm
    rw [hsame.1, hsame.2, ← hnames] at hcut
    have hcutTree : cut.1 = renamedBlock rename body :=
      hcut.2.block_unique (filled_renamed _ body)
    have hcutTour : cut.2 = whole.2 := hcut.1.trans hwhole.1.symm
    rw [hcutTour, hwent]
    refine ⟨iff_of_true rfl fun n hn => hnone n (mem_names_told.mp hn), fun _ => ?_,
      fun h => absurd rfl h⟩
    exact Prod.ext (hcutTree.trans hall.symm) hcutTour
  -- With it the row of events is cut behind the first one.
  · have hstopped := @Itinerary.meetAll_cut ⟨renamings, some stop⟩ {} n front back rfl
      (fun m hm heq => hfront m hm (Option.some.inj heq).symm) (congrArg some hn.symm)
    rw [hstopped.1, hstopped.2] at hcut
    have hat : cut.2.stoppedAt = some n.text := by rw [show cut.2 = _ from hcut.1]
    have hmem : n ∈ (front ++ .name n :: back).filterMap Event.name? :=
      mem_names_told.mpr (List.mem_append_right _ List.mem_cons_self)
    rw [hat]
    refine ⟨iff_of_false (by simp) fun h => h n hmem hn, nofun, fun _ => ?_⟩
    refine ⟨front, n, back, rfl, hn, hfront, ?_, ?_, ?_, ?_⟩
    · rw [show cut.2 = _ from hcut.1]
      simp
    · exact congrArg (fun body => Element.part (.block body)) hcut.2.block.block_nameless
    · rw [List.filterMap_append, List.filterMap_cons, Event.name?]
    · rw [Element.names_part]
      exact hcut.2.names

end Lua
end LuaBundle
