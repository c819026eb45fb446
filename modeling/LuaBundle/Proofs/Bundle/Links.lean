import LuaBundle.Proofs.Bundle.Scoped

/-!
# References and declarations

The rules of scope, told apart by declaration: every reference of a program is linked to the
declaration it means.  Declarations are counted in reading order, and of two declarations of
a name the later one in the innermost scope is meant.  A mark tells whether there is a link.
-/

namespace LuaBundle
namespace Lua

open Text

/-!
## Declarations

In reading order; the names that a statement adds to the scope come first.
-/

mutual

def Expr.declarations : Expr → List String
  | .name _ | .string _ | .number .. | .boolean _ | .nil | .vararg .. => []
  | .function parameters body => parameterNames parameters ++ blockDeclarations body
  | .table fields => fieldDeclarations fields
  | .binary _ left right => left.declarations ++ right.declarations
  | .unary _ operand => operand.declarations
  | .member base _ _ => base.declarations
  | .index base key => base.declarations ++ key.declarations
  | .call base arguments _ _ => base.declarations ++ arguments.declarations

def Args.declarations : Args → List String
  | .list arguments => exprDeclarations arguments
  | .table fields => fieldDeclarations fields
  | .string _ => []

def Field.declarations : Field → List String
  | .keyed key value => key.declarations ++ value.declarations
  | .named _ value => value.declarations
  | .positional value => value.declarations

/-- The names that are declared in a statement.  Those that it adds to the scope come first. -/
def Stat.declarations : Stat → List String
  | .label _ | .goto _ | .leave => []
  | .ret values => exprDeclarations values
  | .choice clauses => clauseDeclarations clauses
  | .whileLoop condition body => condition.declarations ++ blockDeclarations body
  | .block body => blockDeclarations body
  | .repeatLoop body condition => blockDeclarations body ++ condition.declarations
  | .locals vars values => vars.map (·.name.text) ++ exprDeclarations values
  | .assign targets values => exprDeclarations targets ++ exprDeclarations values
  | .call e => e.declarations
  | .function isLocal name parameters body =>
      (if isLocal then localFunctionNames name else []) ++ (optionDeclarations name ++
        ((receiver name ++ parameterNames parameters) ++ blockDeclarations body))
  | .forRange counter first last step body =>
      counter.text :: (first.declarations ++ (last.declarations ++ (optionDeclarations step ++
        blockDeclarations body)))
  | .forEach vars iterators body =>
      vars.map Name.text ++ (exprDeclarations iterators ++ blockDeclarations body)

def Clause.declarations : Clause → List String
  | .first condition body => condition.declarations ++ blockDeclarations body
  | .next condition body => condition.declarations ++ blockDeclarations body
  | .otherwise body => blockDeclarations body

def optionDeclarations : Option Expr → List String
  | none => []
  | some e => e.declarations

def exprDeclarations : List Expr → List String
  | [] => []
  | e :: rest => e.declarations ++ exprDeclarations rest

def fieldDeclarations : List Field → List String
  | [] => []
  | f :: rest => f.declarations ++ fieldDeclarations rest

def blockDeclarations : List Stat → List String
  | [] => []
  | s :: rest => s.declarations ++ blockDeclarations rest

def clauseDeclarations : List Clause → List String
  | [] => []
  | c :: rest => c.declarations ++ clauseDeclarations rest

end

/-!
## Links

The links of a part are told from the scope before it and the number of declarations before it.
-/

/-- A reference, and the place of the declaration it means; none if its name is free. -/
inductive Link where
  | use (name : String) (target : Option Nat)
  /-- The name in a call of `require` that asks for a module. -/
  | module (target : Option Nat)
deriving DecidableEq, Repr

def Link.name : Link → String
  | .use name _ => name
  | .module _ => "require"

def Link.target : Link → Option Nat
  | .use _ target => target
  | .module target => target

def Link.marked (l : Link) : Name :=
  ⟨l.name, l.target.isSome⟩

/-- The names in scope with the places of their declarations, the innermost first. -/
abbrev LinkScope := List (String × Nat)

def LinkScope.enter (scope : LinkScope) (names : List String) (place : Nat) : LinkScope :=
  (names.zipIdx place).reverse ++ scope

def parameterLinks (place : Nat) (parameters : List Expr) : List Link :=
  ((parameterNames parameters).zipIdx place).map fun (name, i) => .use name (some i)

def blockScope (scope : LinkScope) (place : Nat) : List Stat → LinkScope
  | [] => scope
  | s :: rest => blockScope (scope.enter s.added place) (place + s.declarations.length) rest

mutual

def Expr.links (scope : LinkScope) (place : Nat) : Expr → List Link
  | .name n => [.use n.text (scope.lookup n.text)]
  | .string _ | .number .. | .boolean _ | .nil | .vararg .. => []
  | .function parameters body =>
      parameterLinks place parameters ++
        blockLinks (scope.enter (parameterNames parameters) place)
          (place + (parameterNames parameters).length) body
  | .table fields => fieldLinks scope place fields
  | .binary _ left right =>
      left.links scope place ++ right.links scope (place + left.declarations.length)
  | .unary _ operand => operand.links scope place
  | .member base _ _ => base.links scope place
  | .index base key =>
      base.links scope place ++ key.links scope (place + base.declarations.length)
  | .call base arguments inParens line =>
      match requireCall? (.call base arguments inParens line) with
      | some (.module ..) => [.module (scope.lookup "require")]
      | _ => base.links scope place ++ arguments.links scope (place + base.declarations.length)

def Args.links (scope : LinkScope) (place : Nat) : Args → List Link
  | .list arguments => exprLinks scope place arguments
  | .table fields => fieldLinks scope place fields
  | .string _ => []

def Field.links (scope : LinkScope) (place : Nat) : Field → List Link
  | .keyed key value =>
      key.links scope place ++ value.links scope (place + key.declarations.length)
  | .named _ value => value.links scope place
  | .positional value => value.links scope place

def Stat.links (scope : LinkScope) (place : Nat) : Stat → List Link
  | .label _ | .goto _ | .leave => []
  | .ret values => exprLinks scope place values
  | .choice clauses => clauseLinks scope place clauses
  | .whileLoop condition body =>
      condition.links scope place ++
        blockLinks scope (place + condition.declarations.length) body
  | .block body => blockLinks scope place body
  | .repeatLoop body condition =>
      blockLinks scope place body ++
        condition.links (blockScope scope place body) (place + (blockDeclarations body).length)
  | .locals vars values => exprLinks scope (place + vars.length) values
  | .assign targets values =>
      exprLinks scope place targets ++
        exprLinks scope (place + (exprDeclarations targets).length) values
  | .call e => e.links scope place
  | .function isLocal name parameters body =>
      let added := if isLocal then localFunctionNames name else []
      let outer := scope.enter added place
      let before := place + added.length
      let inside := before + (optionDeclarations name).length
      let names := receiver name ++ parameterNames parameters
      optionLinks outer before name ++
        (parameterLinks (inside + (receiver name).length) parameters ++
          blockLinks (outer.enter names inside) (inside + names.length) body)
  | .forRange counter first last step body =>
      let afterFirst := place + 1 + first.declarations.length
      let afterLast := afterFirst + last.declarations.length
      first.links scope (place + 1) ++ (last.links scope afterFirst ++
        (optionLinks scope afterLast step ++
          blockLinks (scope.enter [counter.text] place)
            (afterLast + (optionDeclarations step).length) body))
  | .forEach vars iterators body =>
      exprLinks scope (place + vars.length) iterators ++
        blockLinks (scope.enter (vars.map Name.text) place)
          (place + vars.length + (exprDeclarations iterators).length) body

def Clause.links (scope : LinkScope) (place : Nat) : Clause → List Link
  | .first condition body =>
      condition.links scope place ++
        blockLinks scope (place + condition.declarations.length) body
  | .next condition body =>
      condition.links scope place ++
        blockLinks scope (place + condition.declarations.length) body
  | .otherwise body => blockLinks scope place body

def optionLinks (scope : LinkScope) (place : Nat) : Option Expr → List Link
  | none => []
  | some e => e.links scope place

def exprLinks (scope : LinkScope) (place : Nat) : List Expr → List Link
  | [] => []
  | e :: rest => e.links scope place ++ exprLinks scope (place + e.declarations.length) rest

def fieldLinks (scope : LinkScope) (place : Nat) : List Field → List Link
  | [] => []
  | f :: rest => f.links scope place ++ fieldLinks scope (place + f.declarations.length) rest

def blockLinks (scope : LinkScope) (place : Nat) : List Stat → List Link
  | [] => []
  | s :: rest =>
      s.links scope place ++
        blockLinks (scope.enter s.added place) (place + s.declarations.length) rest

def clauseLinks (scope : LinkScope) (place : Nat) : List Clause → List Link
  | [] => []
  | c :: rest => c.links scope place ++ clauseLinks scope (place + c.declarations.length) rest

end

/-!
## Calls that ask for a module
-/

theorem requireCall_module {base : Expr} {arguments : Args} {inParens : Bool} {line : Nat}
    {name : String} {callLine : Nat}
    (h : requireCall? (.call base arguments inParens line) = some (.module name callLine)) :
    ∃ n, base = .name n ∧ n.text = "require" ∧
      ((∃ literal, arguments = .list [.string literal]) ∨
        ∃ literal, arguments = .string literal) := by
  simp only [requireCall?] at h
  split at h
  · rename_i hrequire
    unfold isRequire at hrequire
    split at hrequire
    · rename_i n
      refine ⟨n, rfl, eq_of_beq hrequire, ?_⟩
      split at h
      · exact Or.inl ⟨_, rfl⟩
      · exact Or.inr ⟨_, rfl⟩
      · cases h
    · cases hrequire
  · cases h

theorem links_call_module {scope : LinkScope} {place : Nat} {base : Expr} {arguments : Args}
    {inParens : Bool} {line : Nat} {name : String} {callLine : Nat}
    (h : requireCall? (.call base arguments inParens line) = some (.module name callLine)) :
    (Expr.call base arguments inParens line).links scope place =
      [.module (scope.lookup "require")] := by
  rw [Expr.links, h]

theorem links_call {scope : LinkScope} {place : Nat} {base : Expr} {arguments : Args}
    {inParens : Bool} {line : Nat}
    (h : ∀ name callLine,
      requireCall? (.call base arguments inParens line) ≠ some (.module name callLine)) :
    (Expr.call base arguments inParens line).links scope place =
      base.links scope place ++ arguments.links scope (place + base.declarations.length) := by
  rw [Expr.links]
  split
  · rename_i heq
    exact absurd heq (h _ _)
  · rfl

/-!
## Links and marks
-/

section Marks

variable {encoding : Encoding}

/-- A scope of names and one that tells their declarations. -/
def Covers (names : List String) (scope : LinkScope) : Prop :=
  ∀ a, names.contains a = (scope.lookup a).isSome

theorem lookup_isSome (scope : LinkScope) (a : String) :
    (scope.lookup a).isSome = (scope.map Prod.fst).contains a := by
  induction scope with
  | nil => rfl
  | cons entry rest ih =>
      rcases entry with ⟨b, i⟩
      rw [List.lookup_cons, List.map_cons, List.contains_cons, ← ih]
      cases a == b <;> rfl

theorem covers_nil : Covers [] [] :=
  fun _ => rfl

theorem lookup_enter (scope : LinkScope) (added : List String) (place : Nat) (a : String) :
    (scope.enter added place).lookup a =
      ((added.zipIdx place).reverse.lookup a).or (scope.lookup a) := by
  rw [LinkScope.enter, List.lookup_append]

theorem Covers.enter {names : List String} {scope : LinkScope} (h : Covers names scope)
    (added : List String) (place : Nat) : Covers (added ++ names) (scope.enter added place) := by
  intro a
  have hadded : ((added.zipIdx place).reverse.lookup a).isSome = added.contains a := by
    rw [lookup_isSome, List.map_reverse, List.zipIdx_map_fst]
    simp
  rw [List.contains_append, lookup_enter, Option.isSome_or, hadded, h a]

theorem Covers.function {names : List String} {scope : LinkScope} (h : Covers names scope)
    (name : Option Expr) (parameters : List Expr) (place : Nat) :
    Covers (functionScope names name parameters)
      (scope.enter (receiver name ++ parameterNames parameters) place) := by
  intro a
  rw [← h.enter (receiver name ++ parameterNames parameters) place a, functionScope]
  simp only [List.contains_append]
  rw [Bool.or_comm ((parameterNames parameters).contains a)]

theorem Covers.localFunction {names : List String} {scope : LinkScope} (h : Covers names scope)
    (isLocal : Bool) (name : Option Expr) (place : Nat) :
    Covers (if isLocal then localFunctionNames name ++ names else names)
      (scope.enter (if isLocal then localFunctionNames name else []) place) := by
  cases isLocal with
  | false => exact h
  | true => exact h.enter _ _

theorem Covers.statement {names : List String} {scope : LinkScope} (h : Covers names scope)
    (s : Stat) (place : Nat) :
    Covers ((s.stripped .binary).resolve names).2 (scope.enter s.added place) := by
  rw [resolve_scope, added_stripped]
  exact h.enter _ _

theorem Covers.block {names : List String} {scope : LinkScope} {place : Nat}
    (h : Covers names scope) (body : List Stat) :
    Covers (resolveBlock names (strippedBlock .binary body)).2 (blockScope scope place body) := by
  induction body generalizing names scope place with
  | nil => exact h
  | cons s rest ih => exact ih (h.statement s place)

theorem localFunctionNames_stripped (name : Option Expr) :
    localFunctionNames (strippedOption .binary name) = localFunctionNames name := by
  cases name with
  | none => rfl
  | some e => cases e <;> rfl

theorem functionScope_stripped (names : List String) (name : Option Expr)
    (parameters : List Expr) :
    functionScope names (strippedOption .binary name) (strippedExprs .binary parameters) =
      functionScope names name parameters := by
  have hparameters : parameterNames (strippedExprs .binary parameters) =
      parameterNames parameters := by
    unfold parameterNames
    induction parameters with
    | nil => rfl
    | cons e rest ih => cases e <;> simp [strippedExprs, Expr.stripped, ih, Name.stripped]
  have hreceiver : receiver (strippedOption .binary name) = receiver name := by
    cases name with
    | none => rfl
    | some e =>
        cases e with
        | member base indexer n => cases indexer <;> rfl
        | _ => rfl
  rw [functionScope, functionScope, hparameters, hreceiver]

theorem parameters_marked : {parameters : List Expr} → Parameters encoding parameters →
    (strippedExprs .binary parameters).map Expr.declared = unlinedExprs parameters →
    (place : Nat) → exprReferences parameters = (parameterLinks place parameters).map Link.marked
  | [], _, _, _ => rfl
  | .name n :: _, hwell, h, place => by
      simp only [strippedExprs, Expr.stripped, List.map_cons, Expr.declared, unlinedExprs,
        Expr.unlined, List.cons.injEq, Expr.name.injEq] at h
      rw [exprReferences, parameters_marked hwell.2 h.2 (place + 1), ← h.1]
      rfl
  | [.vararg .., ], _, _, _ => rfl

theorem name_marked {names : List String} {scope : LinkScope} (hscope : Covers names scope)
    {n : Name} (h : ((Expr.name n).stripped .binary).resolve names = (Expr.name n).unlined) :
    n = (Link.use n.text (scope.lookup n.text)).marked := by
  simp only [Expr.stripped, Expr.resolve, Expr.unlined, Expr.name.injEq] at h
  rw [Link.marked, Link.name, Link.target, ← hscope n.text]
  exact h.symm

mutual

theorem Expr.links_marked {callee : Bool} {names : List String} {scope : LinkScope}
    (hscope : Covers names scope) (place : Nat) : (e : Expr) → e.WellFormed encoding callee →
    (e.stripped .binary).resolve names = e.unlined →
    e.references = (e.links scope place).map Link.marked
  | .name _, _, h => congrArg (fun n => [n]) (name_marked hscope h)
  | .string _, _, _ | .number .., _, _ | .boolean _, _, _ | .nil, _, _ | .vararg .., _, _ => rfl
  | .function parameters body, hwell, h => by
      simp only [Expr.stripped, Expr.resolve, Expr.unlined, Expr.function.injEq] at h
      have hinside := hscope.function none parameters place
      rw [← functionScope_stripped] at hinside
      rw [Expr.references, Expr.links, List.map_append, parameters_marked hwell.1 h.1 place]
      exact congrArg (_ ++ ·) (block_links_marked hinside _ body hwell.2 h.2)
  | .table fields, hwell, h => by
      simp only [Expr.stripped, Expr.resolve, Expr.unlined, Expr.table.injEq] at h
      exact fields_links_marked hscope place fields hwell h
  | .binary _ left right, hwell, h => by
      simp only [Expr.stripped, Expr.resolve, Expr.unlined, Expr.binary.injEq, true_and] at h
      rw [Expr.references, Expr.links, List.map_append,
        left.links_marked hscope place hwell.1 h.1, right.links_marked hscope _ hwell.2 h.2]
  | .unary _ operand, hwell, h => by
      simp only [Expr.stripped, Expr.resolve, Expr.unlined, Expr.unary.injEq, true_and] at h
      exact operand.links_marked hscope place hwell h
  | .member base _ _, hwell, h => by
      simp only [Expr.stripped, Expr.resolve, Expr.unlined, Expr.member.injEq, true_and] at h
      exact base.links_marked hscope place hwell.2.2.1 h.1
  | .index base key, hwell, h => by
      simp only [Expr.stripped, Expr.resolve, Expr.unlined, Expr.index.injEq] at h
      rw [Expr.references, Expr.links, List.map_append,
        base.links_marked hscope place hwell.2.1 h.1, key.links_marked hscope _ hwell.2.2 h.2]
  | .call base arguments inParens line, hwell, h => by
      simp only [Expr.stripped, Expr.resolve, Expr.unlined, Expr.call.injEq, and_true] at h
      rw [Expr.references]
      by_cases hmodule : ∃ name callLine,
          requireCall? (.call base arguments inParens line) = some (.module name callLine)
      · rcases hmodule with ⟨name, callLine, hmodule⟩
        rw [links_call_module hmodule]
        rcases requireCall_module hmodule with ⟨n, rfl, hn, harguments⟩
        have hnone : arguments.references = [] := by
          rcases harguments with ⟨literal, rfl⟩ | ⟨literal, rfl⟩ <;> rfl
        have hname := name_marked hscope h.1
        rw [hn] at hname
        rw [hnone, List.append_nil]
        exact congrArg (fun n => [n]) hname
      · simp only [not_exists] at hmodule
        rw [links_call hmodule, List.map_append, base.links_marked hscope place hwell.2.1 h.1,
          arguments.links_marked hscope _ hwell.2.2 h.2]

theorem Args.links_marked {names : List String} {scope : LinkScope}
    (hscope : Covers names scope) (place : Nat) : (arguments : Args) →
    arguments.WellFormed encoding → (arguments.stripped .binary).resolve names = arguments.unlined →
    arguments.references = (arguments.links scope place).map Link.marked
  | .list arguments, hwell, h => by
      simp only [Args.stripped, Args.resolve, Args.unlined, Args.list.injEq] at h
      exact exprs_links_marked hscope place arguments hwell h
  | .table fields, hwell, h => by
      simp only [Args.stripped, Args.resolve, Args.unlined, Args.table.injEq] at h
      exact fields_links_marked hscope place fields hwell h
  | .string _, _, _ => rfl

theorem Field.links_marked {names : List String} {scope : LinkScope}
    (hscope : Covers names scope) (place : Nat) : (f : Field) → f.WellFormed encoding →
    (f.stripped .binary).resolve names = f.unlined →
    f.references = (f.links scope place).map Link.marked
  | .keyed key value, hwell, h => by
      simp only [Field.stripped, Field.resolve, Field.unlined, Field.keyed.injEq] at h
      rw [Field.references, Field.links, List.map_append,
        key.links_marked hscope place hwell.1 h.1, value.links_marked hscope _ hwell.2 h.2]
  | .named _ value, hwell, h => by
      simp only [Field.stripped, Field.resolve, Field.unlined, Field.named.injEq] at h
      exact value.links_marked hscope place hwell.2 h.2
  | .positional value, hwell, h => by
      simp only [Field.stripped, Field.resolve, Field.unlined, Field.positional.injEq] at h
      exact value.links_marked hscope place hwell h

theorem Stat.links_marked {names : List String} {scope : LinkScope}
    (hscope : Covers names scope) (place : Nat) : (s : Stat) → s.WellFormed encoding →
    ((s.stripped .binary).resolve names).1 = s.unlined →
    s.references = (s.links scope place).map Link.marked
  | .label _, _, _ | .goto _, _, _ | .leave, _, _ => rfl
  | .ret values, hwell, h => by
      simp only [Stat.stripped, Stat.resolve, Stat.unlined, Stat.ret.injEq] at h
      exact exprs_links_marked hscope place values hwell h
  | .choice clauses, hwell, h => by
      simp only [Stat.stripped, Stat.resolve, Stat.unlined, Stat.choice.injEq] at h
      exact clauses_links_marked hscope place clauses hwell.2 h
  | .whileLoop condition body, hwell, h => by
      simp only [Stat.stripped, Stat.resolve, Stat.unlined, Stat.whileLoop.injEq] at h
      rw [Stat.references, Stat.links, List.map_append,
        condition.links_marked hscope place hwell.1 h.1,
        block_links_marked hscope _ body hwell.2 h.2]
  | .block body, hwell, h => by
      simp only [Stat.stripped, Stat.resolve, Stat.unlined, Stat.block.injEq] at h
      exact block_links_marked hscope place body hwell h
  | .repeatLoop body condition, hwell, h => by
      simp only [Stat.stripped, Stat.resolve, Stat.unlined, Stat.repeatLoop.injEq] at h
      rw [Stat.references, Stat.links, List.map_append,
        block_links_marked hscope place body hwell.1 h.1,
        condition.links_marked (hscope.block body) _ hwell.2 h.2]
  | .locals _ values, hwell, h => by
      simp only [Stat.stripped, Stat.resolve, Stat.unlined, Stat.locals.injEq] at h
      exact exprs_links_marked hscope _ values hwell.2.2 h.2
  | .assign targets values, hwell, h => by
      simp only [Stat.stripped, Stat.resolve, Stat.unlined, Stat.assign.injEq] at h
      rw [Stat.references, Stat.links, List.map_append,
        exprs_links_marked hscope place targets hwell.2.2.2.1 h.1,
        exprs_links_marked hscope _ values hwell.2.2.2.2 h.2]
  | .call e, hwell, h => by
      simp only [Stat.stripped, Stat.resolve, Stat.unlined, Stat.call.injEq] at h
      exact e.links_marked hscope place hwell.2.2 h
  | .function _ none .., hwell, _ => absurd hwell.1 id
  | .function isLocal (some e) parameters body, hwell, h => by
      rcases functionName_wellFormed hwell.1 with ⟨_, ⟨rfl⟩, he⟩
      simp only [Stat.stripped, Stat.resolve, Stat.unlined, Stat.function.injEq, true_and,
        localFunctionNames_stripped, functionScope_stripped] at h
      have houter := hscope.localFunction isLocal (some e) place
      simp only [Stat.references, Stat.links, List.map_append, List.append_assoc]
      exact congrArg₂ (· ++ ·) (e.links_marked houter _ he (Option.some.inj h.1))
        (congrArg₂ (· ++ ·) (parameters_marked hwell.2.1 h.2.1 _)
          (block_links_marked (houter.function _ _ _) _ body hwell.2.2 h.2.2))
  | .forRange counter first last step body, hwell, h => by
      simp only [Stat.stripped, Stat.resolve, Stat.unlined, Stat.forRange.injEq] at h
      have hinside := hscope.enter [counter.text] place
      simp only [Stat.references, Stat.links, List.map_append, List.append_assoc]
      exact congrArg₂ (· ++ ·) (first.links_marked hscope _ hwell.2.1 h.2.1)
        (congrArg₂ (· ++ ·) (last.links_marked hscope _ hwell.2.2.1 h.2.2.1)
          (congrArg₂ (· ++ ·) (option_links_marked hscope _ step hwell.2.2.2.1 h.2.2.2.1)
            (block_links_marked hinside _ body hwell.2.2.2.2 h.2.2.2.2)))
  | .forEach vars iterators body, hwell, h => by
      simp only [Stat.stripped, Stat.resolve, Stat.unlined, Stat.forEach.injEq, List.map_map] at h
      have hinside := hscope.enter (vars.map Name.text) place
      simp only [Stat.references, Stat.links, List.map_append]
      exact congrArg₂ (· ++ ·) (exprs_links_marked hscope _ iterators hwell.2.2.2.1 h.2.1)
        (block_links_marked hinside _ body hwell.2.2.2.2 h.2.2)

theorem Clause.links_marked {names : List String} {scope : LinkScope}
    (hscope : Covers names scope) (place : Nat) : (c : Clause) → c.WellFormed encoding →
    (c.stripped .binary).resolve names = c.unlined →
    c.references = (c.links scope place).map Link.marked
  | .first condition body, hwell, h | .next condition body, hwell, h => by
      simp only [Clause.stripped, Clause.resolve, Clause.unlined, Clause.first.injEq,
        Clause.next.injEq] at h
      rw [Clause.references, Clause.links, List.map_append,
        condition.links_marked hscope place hwell.1 h.1,
        block_links_marked hscope _ body hwell.2 h.2]
  | .otherwise body, hwell, h => by
      simp only [Clause.stripped, Clause.resolve, Clause.unlined, Clause.otherwise.injEq] at h
      exact block_links_marked hscope place body hwell h

theorem option_links_marked {names : List String} {scope : LinkScope}
    (hscope : Covers names scope) (place : Nat) : (o : Option Expr) →
    optionWellFormed encoding o → resolveOption names (strippedOption .binary o) = unlinedOption o →
    optionReferences o = (optionLinks scope place o).map Link.marked
  | none, _, _ => rfl
  | some e, hwell, h => e.links_marked hscope place hwell (Option.some.inj h)

theorem exprs_links_marked {names : List String} {scope : LinkScope}
    (hscope : Covers names scope) (place : Nat) : (es : List Expr) →
    exprsWellFormed encoding es → resolveExprs names (strippedExprs .binary es) = unlinedExprs es →
    exprReferences es = (exprLinks scope place es).map Link.marked
  | [], _, _ => rfl
  | e :: rest, hwell, h => by
      simp only [strippedExprs, resolveExprs, unlinedExprs, List.cons.injEq] at h
      rw [exprReferences, exprLinks, List.map_append, e.links_marked hscope place hwell.1 h.1,
        exprs_links_marked hscope _ rest hwell.2 h.2]

theorem fields_links_marked {names : List String} {scope : LinkScope}
    (hscope : Covers names scope) (place : Nat) : (fs : List Field) →
    fieldsWellFormed encoding fs →
    resolveFields names (strippedFields .binary fs) = unlinedFields fs →
    fieldReferences fs = (fieldLinks scope place fs).map Link.marked
  | [], _, _ => rfl
  | f :: rest, hwell, h => by
      simp only [strippedFields, resolveFields, unlinedFields, List.cons.injEq] at h
      rw [fieldReferences, fieldLinks, List.map_append, f.links_marked hscope place hwell.1 h.1,
        fields_links_marked hscope _ rest hwell.2 h.2]

/-- Where the marks are those of the rules of scope, they mark just the references that have
links. -/
theorem block_links_marked {names : List String} {scope : LinkScope}
    (hscope : Covers names scope) (place : Nat) : (body : List Stat) →
    blockWellFormed encoding body → Settled names body →
    blockReferences body = (blockLinks scope place body).map Link.marked
  | [], _, _ => rfl
  | s :: rest, hwell, h => by
      simp only [Settled, strippedBlock, resolveBlock, unlinedBlock, List.cons.injEq] at h
      rw [blockReferences, blockLinks, List.map_append, s.links_marked hscope place hwell.1 h.1,
        block_links_marked (hscope.statement s place) _ rest hwell.2.2 h.2]

theorem clauses_links_marked {names : List String} {scope : LinkScope}
    (hscope : Covers names scope) (place : Nat) : (clauses : List Clause) →
    clausesWellFormed encoding clauses →
    resolveClauses names (strippedClauses .binary clauses) = unlinedClauses clauses →
    clauseReferences clauses = (clauseLinks scope place clauses).map Link.marked
  | [], _, _ => rfl
  | c :: rest, hwell, h => by
      simp only [strippedClauses, resolveClauses, unlinedClauses, List.cons.injEq] at h
      rw [clauseReferences, clauseLinks, List.map_append, c.links_marked hscope place hwell.1 h.1,
        clauses_links_marked hscope _ rest hwell.2 h.2]

end

end Marks

/-!
## Links and names

A link leads to a declaration of the name of its reference.
-/

section Named

variable {all : List String}

/-- Whether names stand among all declarations at a place. -/
def DeclaredAt (all : List String) (place : Nat) (names : List String) : Prop :=
  names <+: all.drop place

theorem DeclaredAt.left {place : Nat} {front back : List String}
    (h : DeclaredAt all place (front ++ back)) : DeclaredAt all place front :=
  (List.prefix_append _ _).trans h

theorem DeclaredAt.right {place : Nat} {front back : List String}
    (h : DeclaredAt all place (front ++ back)) : DeclaredAt all (place + front.length) back := by
  rcases h with ⟨rest, hrest⟩
  refine ⟨rest, ?_⟩
  rw [← List.drop_drop, ← hrest, List.append_assoc, List.drop_left]

theorem DeclaredAt.get {place i : Nat} {names : List String} {name : String}
    (h : DeclaredAt all place names) (hi : names[i]? = some name) :
    all[place + i]? = some name := by
  rcases h with ⟨rest, hrest⟩
  rw [← List.getElem?_drop, ← hrest]
  exact List.getElem?_append_left (List.getElem?_eq_some_iff.mp hi).1 ▸ hi

def LinkScope.IsNamed (all : List String) (scope : LinkScope) : Prop :=
  ∀ name i, (name, i) ∈ scope → all[i]? = some name

def Named (all : List String) (links : List Link) : Prop :=
  ∀ l ∈ links, ∀ i, l.target = some i → all[i]? = some l.name

theorem named_nil : Named all [] :=
  fun _ hl => absurd hl List.not_mem_nil

theorem Named.append {front back : List Link} (h : Named all front) (h' : Named all back) :
    Named all (front ++ back) :=
  fun l hl => (List.mem_append.mp hl).elim (h l) (h' l)

theorem named_lookup {scope : LinkScope} (h : scope.IsNamed all) {l : Link}
    (hl : l.target = scope.lookup l.name) : Named all [l] := by
  intro l' hl' i hi
  rw [List.mem_singleton.mp hl'] at hi ⊢
  rw [hl] at hi
  rcases List.lookup_eq_some_iff.mp hi with ⟨front, back, heq, _⟩
  exact h l.name i (by simp [heq])

theorem LinkScope.IsNamed.enter {scope : LinkScope} (h : scope.IsNamed all) {names : List String}
    {place : Nat} (hnames : DeclaredAt all place names) :
    (scope.enter names place).IsNamed all := by
  intro name i hmem
  rcases List.mem_append.mp hmem with hmem | hmem
  · rcases List.mk_mem_zipIdx_iff_le_and_getElem?_sub.mp (List.mem_reverse.mp hmem) with ⟨hle, hget⟩
    have hname := hnames.get hget
    rwa [Nat.add_sub_of_le hle] at hname
  · exact h name i hmem

theorem named_parameters {place : Nat} {parameters : List Expr}
    (h : DeclaredAt all place (parameterNames parameters)) :
    Named all (parameterLinks place parameters) := by
  intro l hl i hi
  rcases List.mem_map.mp hl with ⟨⟨name, j⟩, hmem, rfl⟩
  cases hi
  rcases List.mk_mem_zipIdx_iff_le_and_getElem?_sub.mp hmem with ⟨hle, hget⟩
  have hname := h.get hget
  rwa [Nat.add_sub_of_le hle] at hname

theorem declarations_added (s : Stat) : ∃ rest, s.declarations = s.added ++ rest := by
  cases s with
  | locals vars values => exact ⟨_, rfl⟩
  | function isLocal name parameters body => exact ⟨_, rfl⟩
  | _ => exact ⟨_, rfl⟩

theorem LinkScope.IsNamed.statement {scope : LinkScope} (h : scope.IsNamed all) {s : Stat}
    {place : Nat} (hs : DeclaredAt all place s.declarations) :
    (scope.enter s.added place).IsNamed all := by
  rcases declarations_added s with ⟨rest, heq⟩
  rw [heq] at hs
  exact h.enter hs.left

theorem LinkScope.IsNamed.block {scope : LinkScope} {place : Nat} (h : scope.IsNamed all) :
    (body : List Stat) → DeclaredAt all place (blockDeclarations body) →
    (blockScope scope place body).IsNamed all
  | [], _ => h
  | _ :: rest, hbody => (h.statement hbody.left).block rest hbody.right

mutual

theorem Expr.links_named {scope : LinkScope} (hscope : scope.IsNamed all) (place : Nat) :
    (e : Expr) → DeclaredAt all place e.declarations → Named all (e.links scope place)
  | .name _, _ => named_lookup hscope rfl
  | .string _, _ | .number .., _ | .boolean _, _ | .nil, _ | .vararg .., _ => named_nil
  | .function _ body, h =>
      (named_parameters h.left).append (block_links_named (hscope.enter h.left) _ body h.right)
  | .table fields, h => fields_links_named hscope place fields h
  | .binary _ left right, h =>
      (left.links_named hscope place h.left).append (right.links_named hscope _ h.right)
  | .unary _ operand, h => operand.links_named hscope place h
  | .member base _ _, h => base.links_named hscope place h
  | .index base key, h =>
      (base.links_named hscope place h.left).append (key.links_named hscope _ h.right)
  | .call base arguments inParens line, h => by
      rw [Expr.links]
      split
      · exact named_lookup hscope rfl
      · exact (base.links_named hscope place h.left).append
          (arguments.links_named hscope _ h.right)

theorem Args.links_named {scope : LinkScope} (hscope : scope.IsNamed all) (place : Nat) :
    (arguments : Args) → DeclaredAt all place arguments.declarations →
    Named all (arguments.links scope place)
  | .list arguments, h => exprs_links_named hscope place arguments h
  | .table fields, h => fields_links_named hscope place fields h
  | .string _, _ => named_nil

theorem Field.links_named {scope : LinkScope} (hscope : scope.IsNamed all) (place : Nat) :
    (f : Field) → DeclaredAt all place f.declarations → Named all (f.links scope place)
  | .keyed key value, h =>
      (key.links_named hscope place h.left).append (value.links_named hscope _ h.right)
  | .named _ value, h => value.links_named hscope place h
  | .positional value, h => value.links_named hscope place h

theorem Stat.links_named {scope : LinkScope} (hscope : scope.IsNamed all) (place : Nat) :
    (s : Stat) → DeclaredAt all place s.declarations → Named all (s.links scope place)
  | .label _, _ | .goto _, _ | .leave, _ => named_nil
  | .ret values, h => exprs_links_named hscope place values h
  | .choice clauses, h => clauses_links_named hscope place clauses h
  | .whileLoop condition body, h =>
      (condition.links_named hscope place h.left).append
        (block_links_named hscope _ body h.right)
  | .block body, h => block_links_named hscope place body h
  | .repeatLoop body condition, h =>
      (block_links_named hscope place body h.left).append
        (condition.links_named (hscope.block body h.left) _ h.right)
  | .locals vars values, h => by
      have hvalues := h.right
      rw [List.length_map] at hvalues
      exact exprs_links_named hscope _ values hvalues
  | .assign targets values, h =>
      (exprs_links_named hscope place targets h.left).append
        (exprs_links_named hscope _ values h.right)
  | .call e, h => e.links_named hscope place h
  | .function _ name _ body, h => by
      have houter := hscope.enter h.left
      have hinside := h.right.right
      refine (option_links_named houter _ name h.right.left).append (Named.append ?_ ?_)
      · exact named_parameters hinside.left.right
      · exact block_links_named (houter.enter hinside.left) _ body hinside.right
  | .forRange counter first last step body, h => by
      have hsplit : DeclaredAt all place ([counter.text] ++ _) := h
      have hvalues := hsplit.right
      have hinside := hscope.enter hsplit.left
      exact (first.links_named hscope _ hvalues.left).append
        ((last.links_named hscope _ hvalues.right.left).append
          ((option_links_named hscope _ step hvalues.right.right.left).append
            (block_links_named hinside _ body hvalues.right.right.right)))
  | .forEach vars iterators body, h => by
      have hinside := hscope.enter h.left
      have hvalues := h.right
      rw [List.length_map] at hvalues
      exact (exprs_links_named hscope _ iterators hvalues.left).append
        (block_links_named hinside _ body hvalues.right)

theorem Clause.links_named {scope : LinkScope} (hscope : scope.IsNamed all) (place : Nat) :
    (c : Clause) → DeclaredAt all place c.declarations → Named all (c.links scope place)
  | .first condition body, h | .next condition body, h =>
      (condition.links_named hscope place h.left).append
        (block_links_named hscope _ body h.right)
  | .otherwise body, h => block_links_named hscope place body h

theorem option_links_named {scope : LinkScope} (hscope : scope.IsNamed all) (place : Nat) :
    (o : Option Expr) → DeclaredAt all place (optionDeclarations o) →
    Named all (optionLinks scope place o)
  | none, _ => named_nil
  | some e, h => e.links_named hscope place h

theorem exprs_links_named {scope : LinkScope} (hscope : scope.IsNamed all) (place : Nat) :
    (es : List Expr) → DeclaredAt all place (exprDeclarations es) →
    Named all (exprLinks scope place es)
  | [], _ => named_nil
  | e :: rest, h =>
      (e.links_named hscope place h.left).append (exprs_links_named hscope _ rest h.right)

theorem fields_links_named {scope : LinkScope} (hscope : scope.IsNamed all) (place : Nat) :
    (fs : List Field) → DeclaredAt all place (fieldDeclarations fs) →
    Named all (fieldLinks scope place fs)
  | [], _ => named_nil
  | f :: rest, h =>
      (f.links_named hscope place h.left).append (fields_links_named hscope _ rest h.right)

theorem block_links_named {scope : LinkScope} (hscope : scope.IsNamed all) (place : Nat) :
    (body : List Stat) → DeclaredAt all place (blockDeclarations body) →
    Named all (blockLinks scope place body)
  | [], _ => named_nil
  | s :: rest, h =>
      (s.links_named hscope place h.left).append
        (block_links_named (hscope.statement h.left) _ rest h.right)

theorem clauses_links_named {scope : LinkScope} (hscope : scope.IsNamed all) (place : Nat) :
    (clauses : List Clause) → DeclaredAt all place (clauseDeclarations clauses) →
    Named all (clauseLinks scope place clauses)
  | [], _ => named_nil
  | c :: rest, h =>
      (c.links_named hscope place h.left).append (clauses_links_named hscope _ rest h.right)

end

/-- The links of a whole program lead to declarations of their names in it. -/
theorem program_links_named (body : List Stat) :
    Named (blockDeclarations body) (blockLinks [] 0 body) :=
  block_links_named (fun _ _ h => absurd h List.not_mem_nil) 0 body (by simp [DeclaredAt])

end Named

end Lua
end LuaBundle
