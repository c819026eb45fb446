import LuaBundle.Proofs.Bundle.Links
import LuaBundle.Proofs.Bundle.Nodes

/-!
# Links of rewritten trees

A script keeps its links when its calls are replaced and it is put behind the declarations
of a bundle: those to its own declarations move with them, names that were free stay free,
and the calls that are put in are linked to the loader.
-/

namespace LuaBundle
namespace Lua

open Text

/-- A link of a script in a bundle, where the declarations of the script start at a place and
the loader is declared at another. -/
def Link.carried (place loaderPlace : Nat) : Link → Link
  | .use name target => .use name (target.map (· + place))
  | .module _ => .use loaderName (some loaderPlace)

/-!
## Declarations
-/

section Declarations

variable {encoding : Encoding} (number : String → Nat)

theorem replacement_declarations (e : Expr) (id : Nat) : (replacement e id).declarations = [] := by
  unfold replacement
  split <;> rfl

theorem declarations_of_requireCall {base : Expr} {arguments : Args} {inParens : Bool} {line : Nat}
    {name : String} {callLine : Nat}
    (h : requireCall? (.call base arguments inParens line) = some (.module name callLine)) :
    (Expr.call base arguments inParens line).declarations = [] := by
  rcases requireCall_module h with ⟨n, rfl, _, ⟨literal, rfl⟩ | ⟨literal, rfl⟩⟩ <;> rfl

mutual

theorem Expr.declarations_rewrite {callee : Bool} : (e : Expr) → e.WellFormed encoding callee →
    (e.rewrite number).declarations = e.declarations
  | .name _, _ | .string _, _ | .number .., _ | .boolean _, _ | .nil, _ | .vararg .., _ => rfl
  | .function parameters body, h => by
      rw [Expr.rewrite, Expr.declarations, Expr.declarations, rewrite_parameters number h.1,
        block_declarations_rewrite body h.2]
  | .table fields, h => fields_declarations_rewrite fields h
  | .binary _ left right, h =>
      congrArg₂ (· ++ ·) (left.declarations_rewrite h.1) (right.declarations_rewrite h.2)
  | .unary _ operand, h => operand.declarations_rewrite h
  | .member base _ _, h => base.declarations_rewrite h.2.2.1
  | .index base key, h =>
      congrArg₂ (· ++ ·) (base.declarations_rewrite h.2.1) (key.declarations_rewrite h.2.2)
  | .call base arguments inParens line, h => by
      rcases rewrite_call number base arguments inParens line with
        ⟨name, callLine, hcall, heq⟩ | ⟨_, heq⟩
      · rw [heq, replacement_declarations, declarations_of_requireCall hcall]
      · rw [heq, Expr.declarations, Expr.declarations, base.declarations_rewrite h.2.1,
          arguments.declarations_rewrite h.2.2]

theorem Args.declarations_rewrite : (arguments : Args) → arguments.WellFormed encoding →
    (arguments.rewrite number).declarations = arguments.declarations
  | .list arguments, h => exprs_declarations_rewrite arguments h
  | .table fields, h => fields_declarations_rewrite fields h
  | .string _, _ => rfl

theorem Field.declarations_rewrite : (f : Field) → f.WellFormed encoding →
    (f.rewrite number).declarations = f.declarations
  | .keyed key value, h =>
      congrArg₂ (· ++ ·) (key.declarations_rewrite h.1) (value.declarations_rewrite h.2)
  | .named _ value, h => value.declarations_rewrite h.2
  | .positional value, h => value.declarations_rewrite h

theorem Stat.declarations_rewrite : (s : Stat) → s.WellFormed encoding →
    (s.rewrite number).declarations = s.declarations
  | .label _, _ | .goto _, _ | .leave, _ => rfl
  | .ret values, h => exprs_declarations_rewrite values h
  | .choice clauses, h => clauses_declarations_rewrite clauses h.2
  | .whileLoop condition body, h =>
      congrArg₂ (· ++ ·) (condition.declarations_rewrite h.1) (block_declarations_rewrite body h.2)
  | .block body, h => block_declarations_rewrite body h
  | .repeatLoop body condition, h =>
      congrArg₂ (· ++ ·) (block_declarations_rewrite body h.1) (condition.declarations_rewrite h.2)
  | .locals _ values, h => congrArg₂ (· ++ ·) rfl (exprs_declarations_rewrite values h.2.2)
  | .assign targets values, h =>
      congrArg₂ (· ++ ·) (exprs_declarations_rewrite targets h.2.2.2.1)
        (exprs_declarations_rewrite values h.2.2.2.2)
  | .call e, h => e.declarations_rewrite h.2.2
  | .function _ name parameters body, h => by
      simp only [Stat.rewrite, Stat.declarations, rewrite_functionName number h.1,
        rewrite_parameters number h.2.1, block_declarations_rewrite body h.2.2]
  | .forRange _ first last step body, h => by
      simp only [Stat.rewrite, Stat.declarations, first.declarations_rewrite h.2.1,
        last.declarations_rewrite h.2.2.1, option_declarations_rewrite step h.2.2.2.1,
        block_declarations_rewrite body h.2.2.2.2]
  | .forEach _ iterators body, h => by
      simp only [Stat.rewrite, Stat.declarations, exprs_declarations_rewrite iterators h.2.2.2.1,
        block_declarations_rewrite body h.2.2.2.2]

theorem Clause.declarations_rewrite : (c : Clause) → c.WellFormed encoding →
    (c.rewrite number).declarations = c.declarations
  | .first condition body, h | .next condition body, h =>
      congrArg₂ (· ++ ·) (condition.declarations_rewrite h.1) (block_declarations_rewrite body h.2)
  | .otherwise body, h => block_declarations_rewrite body h

theorem option_declarations_rewrite : (o : Option Expr) → optionWellFormed encoding o →
    optionDeclarations (rewriteOption number o) = optionDeclarations o
  | none, _ => rfl
  | some e, h => e.declarations_rewrite h

theorem exprs_declarations_rewrite : (es : List Expr) → exprsWellFormed encoding es →
    exprDeclarations (rewriteExprs number es) = exprDeclarations es
  | [], _ => rfl
  | e :: rest, h =>
      congrArg₂ (· ++ ·) (e.declarations_rewrite h.1) (exprs_declarations_rewrite rest h.2)

theorem fields_declarations_rewrite : (fs : List Field) → fieldsWellFormed encoding fs →
    fieldDeclarations (rewriteFields number fs) = fieldDeclarations fs
  | [], _ => rfl
  | f :: rest, h =>
      congrArg₂ (· ++ ·) (f.declarations_rewrite h.1) (fields_declarations_rewrite rest h.2)

theorem block_declarations_rewrite : (body : List Stat) → blockWellFormed encoding body →
    blockDeclarations (rewriteBlock number body) = blockDeclarations body
  | [], _ => rfl
  | s :: rest, h =>
      congrArg₂ (· ++ ·) (s.declarations_rewrite h.1) (block_declarations_rewrite rest h.2.2)

theorem clauses_declarations_rewrite : (clauses : List Clause) →
    clausesWellFormed encoding clauses →
    clauseDeclarations (rewriteClauses number clauses) = clauseDeclarations clauses
  | [], _ => rfl
  | c :: rest, h =>
      congrArg₂ (· ++ ·) (c.declarations_rewrite h.1) (clauses_declarations_rewrite rest h.2)

end

end Declarations

/-!
## Scopes
-/

/-- A scope in a script and the one in its place in a bundle. -/
structure LinkScope.Carries (place loaderPlace : Nat) (scope scope' : LinkScope) : Prop where
  moved : ∀ n, ¬IsReserved n → scope'.lookup n.text = (scope.lookup n.text).map (· + place)
  loader : scope'.lookup loaderName = some loaderPlace

section Carries

variable {place loaderPlace : Nat} {scope scope' : LinkScope}

theorem lookup_map_add (entries : List (String × Nat)) (place : Nat) (a : String) :
    (entries.map fun (name, i) => (name, i + place)).lookup a =
      (entries.lookup a).map (· + place) := by
  induction entries with
  | nil => rfl
  | cons entry rest ih =>
      rcases entry with ⟨name, i⟩
      rw [List.map_cons, List.lookup_cons, List.lookup_cons, ih]
      cases a == name <;> rfl

theorem zipIdx_add (names : List String) (first place : Nat) :
    names.zipIdx (first + place) =
      (names.zipIdx first).map fun (name, i) => (name, i + place) := by
  induction names generalizing first with
  | nil => rfl
  | cons name rest ih =>
      rw [List.zipIdx_cons, List.zipIdx_cons, List.map_cons, ← ih]
      congr 2
      omega

theorem lookup_eq_none_of_not_mem {names : List String} {first : Nat} {a : String}
    (h : a ∉ names) : (names.zipIdx first).reverse.lookup a = none := by
  rw [← Option.isNone_iff_eq_none, ← Option.not_isSome, lookup_isSome, List.map_reverse,
    List.zipIdx_map_fst]
  simpa using h

theorem LinkScope.Carries.enter (h : LinkScope.Carries place loaderPlace scope scope')
    {names : List String} (hnames : loaderName ∉ names) (first : Nat) :
    LinkScope.Carries place loaderPlace (scope.enter names first)
      (scope'.enter names (first + place)) where
  moved n hn := by
    rw [lookup_enter, lookup_enter, h.moved n hn, zipIdx_add, ← List.map_reverse, lookup_map_add]
    cases (names.zipIdx first).reverse.lookup n.text <;> rfl
  loader := by
    rw [lookup_enter, lookup_eq_none_of_not_mem hnames, Option.none_or, h.loader]

end Carries

/-!
## Names that a script declares

None of them is the name of the loader.
-/

section Declared

variable {encoding : Encoding} {stops : List WalkStop}

theorem ne_loader_of_passable (h : Passable stops) {n : Name} (hn : WalkStop.name n ∈ stops) :
    n.text ≠ loaderName := by
  intro heq
  refine h _ hn ?_
  unfold IsReserved
  rw [heq]
  decide

theorem loader_not_var {vars : List LocalVar} {values : List WalkStop}
    (h : Passable (vars.map (fun v => .name v.name) ++ values)) :
    loaderName ∉ vars.map (·.name.text) := by
  intro hmem
  rcases List.mem_map.mp hmem with ⟨v, hv, heq⟩
  exact ne_loader_of_passable h.left (List.mem_map.mpr ⟨v, hv, rfl⟩) heq

theorem loader_not_name {names : List Name} {values : List WalkStop}
    (h : Passable (names.map WalkStop.name ++ values)) : loaderName ∉ names.map Name.text := by
  intro hmem
  rcases List.mem_map.mp hmem with ⟨n, hn, heq⟩
  exact ne_loader_of_passable h.left (List.mem_map.mpr ⟨n, hn, rfl⟩) heq

theorem loader_not_parameter : {parameters : List Expr} → Parameters encoding parameters →
    Passable (exprStops parameters) → loaderName ∉ parameterNames parameters
  | [], _, _ => List.not_mem_nil
  | .name n :: rest, hwell, h => by
      intro hmem
      rcases List.mem_cons.mp hmem with heq | hmem
      · exact ne_loader_of_passable h.left (List.mem_singleton_self _) heq.symm
      · exact loader_not_parameter hwell.2 h.right hmem
  | [.vararg .., ], _, _ => List.not_mem_nil

theorem loader_not_receiver (name : Option Expr) : loaderName ∉ receiver name := by
  unfold receiver
  split <;> decide

theorem loader_not_localFunction {name : Option Expr} (isLocal : Bool)
    (h : Passable (optionStops name)) :
    loaderName ∉ if isLocal then localFunctionNames name else [] := by
  cases isLocal with
  | false => exact List.not_mem_nil
  | true =>
      simp only [if_true]
      unfold localFunctionNames
      split
      · intro hmem
        exact ne_loader_of_passable h (List.mem_singleton_self _) (List.mem_singleton.mp hmem).symm
      · exact List.not_mem_nil

theorem loader_not_added {s : Stat} (h : Passable s.stops) : loaderName ∉ s.added := by
  cases s with
  | locals vars values => exact loader_not_var h
  | function isLocal name parameters body => exact loader_not_localFunction isLocal h.left
  | _ => exact List.not_mem_nil

end Declared

/-!
## Links
-/

section Links

variable {encoding : Encoding} {place loaderPlace : Nat} (number : String → Nat)

theorem parameters_carried (first : Nat) (parameters : List Expr) :
    parameterLinks (first + place) parameters =
      (parameterLinks first parameters).map (Link.carried place loaderPlace) := by
  simp only [parameterLinks, zipIdx_add, List.map_map]
  rfl

theorem replacement_links {scope : LinkScope} (h : scope.lookup loaderName = some loaderPlace)
    (first : Nat) (e : Expr) (id : Nat) :
    (replacement e id).links scope first = [.use loaderName (some loaderPlace)] := by
  have hcall : ∀ inParens, (Expr.call (localRef loaderName) (.list [numberExpr id]) inParens
      0).links scope first = [.use loaderName (some loaderPlace)] := by
    intro inParens
    rw [Expr.links, requireCall_loader]
    simp only [localRef, Expr.links, Args.links, exprLinks, numberExpr, h, List.append_nil]
  unfold replacement
  split <;> exact hcall _

theorem requireCall_rewrite {base : Expr} {arguments : Args} {inParens : Bool} {line : Nat}
    (h : requireCall? (.call base arguments inParens line) = none) :
    requireCall? (.call (base.rewrite number) (arguments.rewrite number) inParens line) = none := by
  have hbase : isRequire base = false := by
    cases hrequire : isRequire base with
    | false => rfl
    | true =>
        simp only [requireCall?, hrequire, if_true] at h
        split at h <;> cases h
  have hrewritten : isRequire (base.rewrite number) = false := by
    cases hrequire : isRequire (base.rewrite number) with
    | false => rfl
    | true =>
        cases hshape : base.rewrite number with
        | name n =>
            rw [hshape] at hrequire
            rw [rewrite_eq_name hshape, hrequire] at hbase
            cases hbase
        | _ =>
            rw [hshape] at hrequire
            cases hrequire
  simp only [requireCall?, hrewritten, Bool.false_eq_true, if_false]

theorem LinkScope.Carries.statement {scope scope' : LinkScope}
    (h : LinkScope.Carries place loaderPlace scope scope') {s : Stat}
    (hwell : s.WellFormed encoding)
    (hstops : Passable s.stops) (first : Nat) :
    LinkScope.Carries place loaderPlace (scope.enter s.added first)
      (scope'.enter (s.rewrite number).added (first + place)) := by
  rw [added_rewrite number hwell]
  exact h.enter (loader_not_added hstops) first

theorem LinkScope.Carries.block {scope scope' : LinkScope}
    (h : LinkScope.Carries place loaderPlace scope scope') (first : Nat) : (body : List Stat) →
    blockWellFormed encoding body → Passable (blockStops body) →
    LinkScope.Carries place loaderPlace (blockScope scope first body)
      (blockScope scope' (first + place) (rewriteBlock number body))
  | [], _, _ => h
  | s :: rest, hwell, hstops => by
      rw [blockScope, rewriteBlock, blockScope, s.declarations_rewrite number hwell.1,
        Nat.add_right_comm]
      exact (h.statement number hwell.1 hstops.left first).block _ rest hwell.2.2 hstops.right

mutual

theorem Expr.links_carried {callee : Bool} {scope scope' : LinkScope}
    (hscope : LinkScope.Carries place loaderPlace scope scope') (first : Nat) : (e : Expr) →
    e.WellFormed encoding callee → Passable e.stops →
    (e.rewrite number).links scope' (first + place) =
      (e.links scope first).map (Link.carried place loaderPlace)
  | .name n, _, hstops => by
      simp only [Expr.rewrite, Expr.links, hscope.moved n (hstops _ (List.mem_singleton_self _)),
        List.map_cons, List.map_nil, Link.carried]
  | .string _, _, _ | .number .., _, _ | .boolean _, _, _ | .nil, _, _ | .vararg .., _, _ => rfl
  | .function parameters body, hwell, hstops => by
      have hinside := hscope.enter (loader_not_parameter hwell.1 hstops.left) first
      rw [Expr.rewrite, Expr.links, Expr.links, List.map_append, rewrite_parameters number hwell.1,
        Nat.add_right_comm first place]
      exact congrArg₂ (· ++ ·) (parameters_carried first parameters)
        (block_links_carried hinside _ body hwell.2 hstops.right)
  | .table fields, hwell, hstops => fields_links_carried hscope first fields hwell hstops
  | .binary _ left right, hwell, hstops => by
      rw [Expr.rewrite, Expr.links, Expr.links, List.map_append,
        left.declarations_rewrite number hwell.1, Nat.add_right_comm first place,
        left.links_carried hscope first hwell.1 hstops.left,
        right.links_carried hscope _ hwell.2 hstops.right]
  | .unary _ operand, hwell, hstops => operand.links_carried hscope first hwell hstops
  | .member base _ _, hwell, hstops => base.links_carried hscope first hwell.2.2.1 hstops.left
  | .index base key, hwell, hstops => by
      rw [Expr.rewrite, Expr.links, Expr.links, List.map_append,
        base.declarations_rewrite number hwell.2.1, Nat.add_right_comm first place,
        base.links_carried hscope first hwell.2.1 hstops.left,
        key.links_carried hscope _ hwell.2.2 hstops.right]
  | .call base arguments inParens line, hwell, hstops => by
      rcases rewrite_call_of_passable number hstops with
        ⟨name, callLine, hcall, heq⟩ | ⟨hnone, hbase, harguments, heq⟩
      · rw [heq, replacement_links hscope.loader, links_call_module hcall]
        rfl
      · have hmodule : ∀ name callLine,
            requireCall? (.call base arguments inParens line) ≠ some (.module name callLine) := by
          simp [hnone]
        have hmodule' : ∀ name callLine, requireCall? (.call (base.rewrite number)
            (arguments.rewrite number) inParens line) ≠ some (.module name callLine) := by
          simp [requireCall_rewrite number hnone]
        rw [heq, links_call hmodule, links_call hmodule', List.map_append,
          base.declarations_rewrite number hwell.2.1, Nat.add_right_comm first place,
          base.links_carried hscope first hwell.2.1 hbase,
          arguments.links_carried hscope _ hwell.2.2 harguments]

theorem Args.links_carried {scope scope' : LinkScope}
    (hscope : LinkScope.Carries place loaderPlace scope scope') (first : Nat) :
    (arguments : Args) → arguments.WellFormed encoding → Passable arguments.stops →
    (arguments.rewrite number).links scope' (first + place) =
      (arguments.links scope first).map (Link.carried place loaderPlace)
  | .list arguments, hwell, hstops => exprs_links_carried hscope first arguments hwell hstops
  | .table fields, hwell, hstops => fields_links_carried hscope first fields hwell hstops
  | .string _, _, _ => rfl

theorem Field.links_carried {scope scope' : LinkScope}
    (hscope : LinkScope.Carries place loaderPlace scope scope') (first : Nat) : (f : Field) →
    f.WellFormed encoding → Passable f.stops →
    (f.rewrite number).links scope' (first + place) =
      (f.links scope first).map (Link.carried place loaderPlace)
  | .keyed key value, hwell, hstops => by
      rw [Field.rewrite, Field.links, Field.links, List.map_append,
        key.declarations_rewrite number hwell.1, Nat.add_right_comm first place,
        key.links_carried hscope first hwell.1 hstops.left,
        value.links_carried hscope _ hwell.2 hstops.right]
  | .named _ value, hwell, hstops => value.links_carried hscope first hwell.2 hstops.tail
  | .positional value, hwell, hstops => value.links_carried hscope first hwell hstops

theorem Stat.links_carried {scope scope' : LinkScope}
    (hscope : LinkScope.Carries place loaderPlace scope scope') (first : Nat) : (s : Stat) →
    s.WellFormed encoding → Passable s.stops →
    (s.rewrite number).links scope' (first + place) =
      (s.links scope first).map (Link.carried place loaderPlace)
  | .label _, _, _ | .goto _, _, _ | .leave, _, _ => rfl
  | .ret values, hwell, hstops => exprs_links_carried hscope first values hwell hstops
  | .choice clauses, hwell, hstops => clauses_links_carried hscope first clauses hwell.2 hstops
  | .whileLoop condition body, hwell, hstops => by
      rw [Stat.rewrite, Stat.links, Stat.links, List.map_append,
        condition.declarations_rewrite number hwell.1, Nat.add_right_comm first place,
        condition.links_carried hscope first hwell.1 hstops.left,
        block_links_carried hscope _ body hwell.2 hstops.right]
  | .block body, hwell, hstops => block_links_carried hscope first body hwell hstops
  | .repeatLoop body condition, hwell, hstops => by
      have hinside := hscope.block number first body hwell.1 hstops.left
      rw [Stat.rewrite, Stat.links, Stat.links, List.map_append,
        block_declarations_rewrite number body hwell.1, Nat.add_right_comm first place,
        block_links_carried hscope first body hwell.1 hstops.left,
        condition.links_carried hinside _ hwell.2 hstops.right]
  | .locals vars values, hwell, hstops => by
      rw [Stat.rewrite, Stat.links, Stat.links, Nat.add_right_comm first place,
        exprs_links_carried hscope _ values hwell.2.2 hstops.right]
  | .assign targets values, hwell, hstops => by
      rw [Stat.rewrite, Stat.links, Stat.links, List.map_append,
        exprs_declarations_rewrite number targets hwell.2.2.2.1, Nat.add_right_comm first place,
        exprs_links_carried hscope first targets hwell.2.2.2.1 hstops.left,
        exprs_links_carried hscope _ values hwell.2.2.2.2 hstops.right]
  | .call e, hwell, hstops => e.links_carried hscope first hwell.2.2 hstops
  | .function _ none .., hwell, _ => absurd hwell.1 id
  | .function isLocal (some e) parameters body, hwell, hstops => by
      rcases functionName_wellFormed hwell.1 with ⟨_, ⟨rfl⟩, he⟩
      have hname := rewrite_functionName number hwell.1
      have houter := hscope.enter (loader_not_localFunction isLocal hstops.left) first
      have hnames : loaderName ∉ receiver (some e) ++ parameterNames parameters := by
        rw [List.mem_append, not_or]
        exact ⟨loader_not_receiver _, loader_not_parameter hwell.2.1 hstops.right.left⟩
      have he' := fun first => e.links_carried houter first he hstops.left
      simp only [Option.some.inj hname] at he'
      simp only [Stat.rewrite, Stat.links, hname, rewrite_parameters number hwell.2.1,
        List.map_append, Nat.add_right_comm _ place]
      exact congrArg₂ (· ++ ·) (he' _) (congrArg₂ (· ++ ·) (parameters_carried _ parameters)
        (block_links_carried (houter.enter hnames _) _ body hwell.2.2 hstops.right.right))
  | .forRange counter first' last step body, hwell, hstops => by
      have hcounter : loaderName ∉ [counter.text] := by
        rw [List.mem_singleton]
        exact (ne_loader_of_passable hstops List.mem_cons_self).symm
      have hinside := hscope.enter hcounter first
      simp only [Stat.rewrite, Stat.links, List.map_append, Nat.add_right_comm _ place,
        first'.declarations_rewrite number hwell.2.1, last.declarations_rewrite number hwell.2.2.1,
        option_declarations_rewrite number step hwell.2.2.2.1]
      exact congrArg₂ (· ++ ·) (first'.links_carried hscope _ hwell.2.1 hstops.tail.left)
        (congrArg₂ (· ++ ·) (last.links_carried hscope _ hwell.2.2.1 hstops.tail.right.left)
          (congrArg₂ (· ++ ·)
            (option_links_carried hscope _ step hwell.2.2.2.1 hstops.tail.right.right.left)
            (block_links_carried hinside _ body hwell.2.2.2.2 hstops.tail.right.right.right)))
  | .forEach vars iterators body, hwell, hstops => by
      have hinside := hscope.enter (loader_not_name hstops) first
      simp only [Stat.rewrite, Stat.links, List.map_append, Nat.add_right_comm _ place,
        exprs_declarations_rewrite number iterators hwell.2.2.2.1]
      exact congrArg₂ (· ++ ·)
        (exprs_links_carried hscope _ iterators hwell.2.2.2.1 hstops.right.left)
        (block_links_carried hinside _ body hwell.2.2.2.2 hstops.right.right)

theorem Clause.links_carried {scope scope' : LinkScope}
    (hscope : LinkScope.Carries place loaderPlace scope scope') (first : Nat) : (c : Clause) →
    c.WellFormed encoding → Passable c.stops →
    (c.rewrite number).links scope' (first + place) =
      (c.links scope first).map (Link.carried place loaderPlace)
  | .first condition body, hwell, hstops | .next condition body, hwell, hstops => by
      rw [Clause.rewrite, Clause.links, Clause.links, List.map_append,
        condition.declarations_rewrite number hwell.1, Nat.add_right_comm first place,
        condition.links_carried hscope first hwell.1 hstops.left,
        block_links_carried hscope _ body hwell.2 hstops.right]
  | .otherwise body, hwell, hstops => block_links_carried hscope first body hwell hstops

theorem option_links_carried {scope scope' : LinkScope}
    (hscope : LinkScope.Carries place loaderPlace scope scope') (first : Nat) :
    (o : Option Expr) → optionWellFormed encoding o → Passable (optionStops o) →
    optionLinks scope' (first + place) (rewriteOption number o) =
      (optionLinks scope first o).map (Link.carried place loaderPlace)
  | none, _, _ => rfl
  | some e, hwell, hstops => e.links_carried hscope first hwell hstops

theorem exprs_links_carried {scope scope' : LinkScope}
    (hscope : LinkScope.Carries place loaderPlace scope scope') (first : Nat) :
    (es : List Expr) → exprsWellFormed encoding es → Passable (exprStops es) →
    exprLinks scope' (first + place) (rewriteExprs number es) =
      (exprLinks scope first es).map (Link.carried place loaderPlace)
  | [], _, _ => rfl
  | e :: rest, hwell, hstops => by
      rw [rewriteExprs, exprLinks, exprLinks, List.map_append,
        e.declarations_rewrite number hwell.1, Nat.add_right_comm first place,
        e.links_carried hscope first hwell.1 hstops.left,
        exprs_links_carried hscope _ rest hwell.2 hstops.right]

theorem fields_links_carried {scope scope' : LinkScope}
    (hscope : LinkScope.Carries place loaderPlace scope scope') (first : Nat) :
    (fs : List Field) → fieldsWellFormed encoding fs → Passable (fieldStops fs) →
    fieldLinks scope' (first + place) (rewriteFields number fs) =
      (fieldLinks scope first fs).map (Link.carried place loaderPlace)
  | [], _, _ => rfl
  | f :: rest, hwell, hstops => by
      rw [rewriteFields, fieldLinks, fieldLinks, List.map_append,
        f.declarations_rewrite number hwell.1, Nat.add_right_comm first place,
        f.links_carried hscope first hwell.1 hstops.left,
        fields_links_carried hscope _ rest hwell.2 hstops.right]

theorem block_links_carried {scope scope' : LinkScope}
    (hscope : LinkScope.Carries place loaderPlace scope scope') (first : Nat) :
    (body : List Stat) → blockWellFormed encoding body → Passable (blockStops body) →
    blockLinks scope' (first + place) (rewriteBlock number body) =
      (blockLinks scope first body).map (Link.carried place loaderPlace)
  | [], _, _ => rfl
  | s :: rest, hwell, hstops => by
      rw [rewriteBlock, blockLinks, blockLinks, List.map_append,
        s.declarations_rewrite number hwell.1, Nat.add_right_comm first place,
        s.links_carried hscope first hwell.1 hstops.left,
        block_links_carried (hscope.statement number hwell.1 hstops.left first) _ rest
          hwell.2.2 hstops.right]

theorem clauses_links_carried {scope scope' : LinkScope}
    (hscope : LinkScope.Carries place loaderPlace scope scope') (first : Nat) :
    (clauses : List Clause) → clausesWellFormed encoding clauses →
    Passable (clauseStops clauses) →
    clauseLinks scope' (first + place) (rewriteClauses number clauses) =
      (clauseLinks scope first clauses).map (Link.carried place loaderPlace)
  | [], _, _ => rfl
  | c :: rest, hwell, hstops => by
      rw [rewriteClauses, clauseLinks, clauseLinks, List.map_append,
        c.declarations_rewrite number hwell.1, Nat.add_right_comm first place,
        c.links_carried hscope first hwell.1 hstops.left,
        clauses_links_carried hscope _ rest hwell.2 hstops.right]

end

end Links

end Lua
end LuaBundle
