import LuaBundle.Proofs.Bundle.Rewritten
import LuaBundle.Proofs.Bundle.Visits
import LuaBundle.Proofs.Tree.Marks

/-!
# Marks of rewritten trees

The names of a bundle are reserved, so no name of a script changes its mark when they come
into scope around it.  The call that stands for a call of `require` is marked as the loader
is, which has to be in scope there.
-/

namespace LuaBundle
namespace Lua

open Text

/-!
## Scopes after a statement
-/

theorem added_stripped (s : Stat) : (s.stripped .binary).added = s.added := by
  cases s with
  | locals vars values => simp [Stat.stripped, Stat.added, LocalVar.stripped, Name.stripped]
  | function isLocal name parameters body =>
      rcases name with _ | e
      · rfl
      · cases e <;> rfl
  | _ => rfl

theorem added_rewrite {encoding : Encoding} (number : String → Nat) {s : Stat}
    (h : s.WellFormed encoding) : (s.rewrite number).added = s.added := by
  cases s with
  | function isLocal name parameters body =>
      rw [Stat.rewrite, rewrite_functionName number h.1]
      rfl
  | _ => rfl

/-!
## Stops that can be passed
-/

/-- Whether a walk may pass a stop: no reserved name may stand in a script, and no call of
`require` without a literal. -/
def WalkStop.IsPassable : WalkStop → Prop
  | .name n => ¬IsReserved n
  | .call (.unsupported _) => False
  | .call (.module ..) => True

def Passable (stops : List WalkStop) : Prop :=
  ∀ stop ∈ stops, stop.IsPassable

theorem Passable.left {front back : List WalkStop} (h : Passable (front ++ back)) :
    Passable front :=
  fun stop hstop => h stop (List.mem_append_left _ hstop)

theorem Passable.right {front back : List WalkStop} (h : Passable (front ++ back)) :
    Passable back :=
  fun stop hstop => h stop (List.mem_append_right _ hstop)

theorem Passable.tail {stop : WalkStop} {stops : List WalkStop} (h : Passable (stop :: stops)) :
    Passable stops :=
  fun other hother => h other (List.mem_cons_of_mem _ hother)

theorem rewrite_call_of_passable (number : String → Nat) {base : Expr} {arguments : Args}
    {inParens : Bool} {line : Nat}
    (h : Passable (Expr.call base arguments inParens line).stops) :
    (∃ name callLine, requireCall? (.call base arguments inParens line) =
        some (.module name callLine) ∧
      (Expr.call base arguments inParens line).rewrite number =
        replacement (.call base arguments inParens line) (number name)) ∨
    (requireCall? (.call base arguments inParens line) = none ∧ Passable base.stops ∧
      Passable arguments.stops ∧
      (Expr.call base arguments inParens line).rewrite number =
        .call (base.rewrite number) (arguments.rewrite number) inParens line) := by
  rw [Expr.stops] at h
  rcases rewrite_call number base arguments inParens line with hreplaced | ⟨hne, heq⟩
  · exact Or.inl hreplaced
  · refine Or.inr ?_
    split at h
    · rename_i call hcall
      cases call with
      | module name callLine => exact absurd hcall (hne name callLine)
      | unsupported callLine => exact absurd (h _ (List.mem_singleton_self _)) id
    · rename_i hnone
      exact ⟨hnone, h.left, h.right, heq⟩

/-!
## Scopes around a script
-/

/-- A scope and another one, which has the loader and the same names that are not
reserved. -/
structure Shields (scope scope' : List String) : Prop where
  same : ∀ n, ¬IsReserved n → scope'.contains n.text = scope.contains n.text
  loader : scope'.contains loaderName = true

theorem Shields.extend {scope scope' : List String} (h : Shields scope scope')
    (names : List String) : Shields (names ++ scope) (names ++ scope') where
  same n hn := by rw [List.contains_append, List.contains_append, h.same n hn]
  loader := by rw [List.contains_append, h.loader, Bool.or_true]

theorem Shields.function {scope scope' : List String} (h : Shields scope scope')
    (name : Option Expr) (parameters : List Expr) :
    Shields (functionScope scope name parameters) (functionScope scope' name parameters) :=
  h.extend _

theorem Shields.resolve {scope scope' : List String} (h : Shields scope scope') {n : Name}
    (hn : ¬IsReserved n) : n.stripped.resolve scope' = n.stripped.resolve scope := by
  have hsame := h.same n.stripped hn
  unfold Name.resolve
  rw [hsame]

theorem replacement_settled {scope : List String} (h : scope.contains loaderName = true)
    (e : Expr) (id : Nat) :
    ((replacement e id).stripped .binary).resolve scope = (replacement e id).unlined := by
  have hcall : ∀ inParens, ((Expr.call (localRef loaderName) (.list [numberExpr id]) inParens
      0).stripped .binary).resolve scope =
        (Expr.call (localRef loaderName) (.list [numberExpr id]) inParens 0).unlined := by
    intro inParens
    simp only [Expr.stripped, Args.stripped, strippedExprs, localRef, numberExpr, Expr.resolve,
      Args.resolve, resolveExprs, Expr.unlined, Args.unlined, unlinedExprs, Name.stripped,
      Name.resolve, h]
  unfold replacement
  split <;> exact hcall _

/-!
## Settled marks
-/

section Settled

variable {encoding : Encoding} (number : String → Nat)

theorem statement_shields {scope scope' : List String} (hscope : Shields scope scope') {s : Stat}
    (hwell : s.WellFormed encoding) :
    Shields ((s.stripped .binary).resolve scope).2
      (((s.rewrite number).stripped .binary).resolve scope').2 := by
  rw [resolve_scope, resolve_scope, added_stripped, added_stripped, added_rewrite number hwell]
  exact hscope.extend _

theorem block_shields {scope scope' : List String} (hscope : Shields scope scope')
    (body : List Stat) (hwell : blockWellFormed encoding body) :
    Shields (resolveBlock scope (strippedBlock .binary body)).2
      (resolveBlock scope' (strippedBlock .binary (rewriteBlock number body))).2 := by
  induction body generalizing scope scope' with
  | nil => exact hscope
  | cons s rest ih => exact ih (statement_shields number hscope hwell.1) hwell.2.2

mutual

theorem Expr.settled_rewrite {callee : Bool} {scope scope' : List String}
    (hscope : Shields scope scope') : (e : Expr) → e.WellFormed encoding callee →
    Passable e.stops → (e.stripped .binary).resolve scope = e.unlined →
    ((e.rewrite number).stripped .binary).resolve scope' = (e.rewrite number).unlined
  | .name n, _, hstops, h => by
      simp only [Expr.stripped, Expr.resolve, Expr.unlined, Expr.rewrite] at h ⊢
      rw [hscope.resolve (hstops _ (List.mem_singleton_self _)), h]
  | .string _, _, _, _ | .number .., _, _, _ | .boolean _, _, _, _ | .nil, _, _, _
  | .vararg .., _, _, _ => rfl
  | .function parameters body, hwell, hstops, h => by
      simp only [Expr.stripped, Expr.resolve, Expr.unlined, Expr.function.injEq] at h
      simp only [Expr.rewrite, rewrite_parameters number hwell.1, Expr.stripped, Expr.resolve,
        Expr.unlined, Expr.function.injEq]
      exact ⟨h.1, block_settled_rewrite (hscope.function _ _) body hwell.2 hstops.right h.2⟩
  | .table fields, hwell, hstops, h => by
      simp only [Expr.stripped, Expr.resolve, Expr.unlined, Expr.table.injEq, Expr.rewrite] at h ⊢
      exact fields_settled_rewrite hscope fields hwell hstops h
  | .binary _ left right, hwell, hstops, h => by
      simp only [Expr.stripped, Expr.resolve, Expr.unlined, Expr.binary.injEq, Expr.rewrite,
        true_and] at h ⊢
      exact ⟨left.settled_rewrite hscope hwell.1 hstops.left h.1,
        right.settled_rewrite hscope hwell.2 hstops.right h.2⟩
  | .unary _ operand, hwell, hstops, h => by
      simp only [Expr.stripped, Expr.resolve, Expr.unlined, Expr.unary.injEq, Expr.rewrite,
        true_and] at h ⊢
      exact operand.settled_rewrite hscope hwell hstops h
  | .member base _ _, hwell, hstops, h => by
      simp only [Expr.stripped, Expr.resolve, Expr.unlined, Expr.member.injEq, Expr.rewrite,
        true_and] at h ⊢
      exact ⟨base.settled_rewrite hscope hwell.2.2.1 hstops.left h.1, h.2⟩
  | .index base key, hwell, hstops, h => by
      simp only [Expr.stripped, Expr.resolve, Expr.unlined, Expr.index.injEq, Expr.rewrite] at h ⊢
      exact ⟨base.settled_rewrite hscope hwell.2.1 hstops.left h.1,
        key.settled_rewrite hscope hwell.2.2 hstops.right h.2⟩
  | .call base arguments inParens line, hwell, hstops, h => by
      rcases rewrite_call_of_passable number hstops with
        ⟨name, _, _, heq⟩ | ⟨_, hbase, harguments, heq⟩
      · rw [heq]
        exact replacement_settled hscope.loader _ _
      · simp only [Expr.stripped, Expr.resolve, Expr.unlined, Expr.call.injEq, and_true] at h
        simp only [heq, Expr.stripped, Expr.resolve, Expr.unlined, Expr.call.injEq, and_true]
        exact ⟨base.settled_rewrite hscope hwell.2.1 hbase h.1,
          arguments.settled_rewrite hscope hwell.2.2 harguments h.2⟩

theorem Args.settled_rewrite {scope scope' : List String} (hscope : Shields scope scope') :
    (arguments : Args) → arguments.WellFormed encoding → Passable arguments.stops →
    (arguments.stripped .binary).resolve scope = arguments.unlined →
    ((arguments.rewrite number).stripped .binary).resolve scope' =
      (arguments.rewrite number).unlined
  | .list arguments, hwell, hstops, h => by
      simp only [Args.stripped, Args.resolve, Args.unlined, Args.list.injEq, Args.rewrite] at h ⊢
      exact exprs_settled_rewrite hscope arguments hwell hstops h
  | .table fields, hwell, hstops, h => by
      simp only [Args.stripped, Args.resolve, Args.unlined, Args.table.injEq, Args.rewrite] at h ⊢
      exact fields_settled_rewrite hscope fields hwell hstops h
  | .string _, _, _, _ => rfl

theorem Field.settled_rewrite {scope scope' : List String} (hscope : Shields scope scope') :
    (f : Field) → f.WellFormed encoding → Passable f.stops →
    (f.stripped .binary).resolve scope = f.unlined →
    ((f.rewrite number).stripped .binary).resolve scope' = (f.rewrite number).unlined
  | .keyed key value, hwell, hstops, h => by
      simp only [Field.stripped, Field.resolve, Field.unlined, Field.keyed.injEq,
        Field.rewrite] at h ⊢
      exact ⟨key.settled_rewrite hscope hwell.1 hstops.left h.1,
        value.settled_rewrite hscope hwell.2 hstops.right h.2⟩
  | .named _ value, hwell, hstops, h => by
      simp only [Field.stripped, Field.resolve, Field.unlined, Field.named.injEq,
        Field.rewrite] at h ⊢
      exact ⟨h.1, value.settled_rewrite hscope hwell.2 hstops.tail h.2⟩
  | .positional value, hwell, hstops, h => by
      simp only [Field.stripped, Field.resolve, Field.unlined, Field.positional.injEq,
        Field.rewrite] at h ⊢
      exact value.settled_rewrite hscope hwell hstops h

theorem Stat.settled_rewrite {scope scope' : List String} (hscope : Shields scope scope') :
    (s : Stat) → s.WellFormed encoding → Passable s.stops →
    ((s.stripped .binary).resolve scope).1 = s.unlined →
    (((s.rewrite number).stripped .binary).resolve scope').1 = (s.rewrite number).unlined
  | .label _, _, _, h | .goto _, _, _, h | .leave, _, _, h => h
  | .ret values, hwell, hstops, h => by
      simp only [Stat.stripped, Stat.resolve, Stat.unlined, Stat.ret.injEq, Stat.rewrite] at h ⊢
      exact exprs_settled_rewrite hscope values hwell hstops h
  | .choice clauses, hwell, hstops, h => by
      simp only [Stat.stripped, Stat.resolve, Stat.unlined, Stat.choice.injEq,
        Stat.rewrite] at h ⊢
      exact clauses_settled_rewrite hscope clauses hwell.2 hstops h
  | .whileLoop condition body, hwell, hstops, h => by
      simp only [Stat.stripped, Stat.resolve, Stat.unlined, Stat.whileLoop.injEq,
        Stat.rewrite] at h ⊢
      exact ⟨condition.settled_rewrite hscope hwell.1 hstops.left h.1,
        block_settled_rewrite hscope body hwell.2 hstops.right h.2⟩
  | .block body, hwell, hstops, h => by
      simp only [Stat.stripped, Stat.resolve, Stat.unlined, Stat.block.injEq, Stat.rewrite] at h ⊢
      exact block_settled_rewrite hscope body hwell hstops h
  | .repeatLoop body condition, hwell, hstops, h => by
      simp only [Stat.stripped, Stat.resolve, Stat.unlined, Stat.repeatLoop.injEq,
        Stat.rewrite] at h ⊢
      exact ⟨block_settled_rewrite hscope body hwell.1 hstops.left h.1,
        condition.settled_rewrite (block_shields number hscope body hwell.1)
          hwell.2 hstops.right h.2⟩
  | .locals _ values, hwell, hstops, h => by
      simp only [Stat.stripped, Stat.resolve, Stat.unlined, Stat.locals.injEq,
        Stat.rewrite] at h ⊢
      exact ⟨h.1, exprs_settled_rewrite hscope values hwell.2.2 hstops.right h.2⟩
  | .assign targets values, hwell, hstops, h => by
      simp only [Stat.stripped, Stat.resolve, Stat.unlined, Stat.assign.injEq,
        Stat.rewrite] at h ⊢
      exact ⟨exprs_settled_rewrite hscope targets hwell.2.2.2.1 hstops.left h.1,
        exprs_settled_rewrite hscope values hwell.2.2.2.2 hstops.right h.2⟩
  | .call e, hwell, hstops, h => by
      simp only [Stat.stripped, Stat.resolve, Stat.unlined, Stat.call.injEq, Stat.rewrite] at h ⊢
      exact e.settled_rewrite hscope hwell.2.2 hstops h
  | .function _ none .., hwell, _, _ => absurd hwell.1 id
  | .function isLocal (some e) parameters body, hwell, hstops, h => by
      rcases functionName_wellFormed hwell.1 with ⟨_, ⟨rfl⟩, he⟩
      simp only [Stat.stripped, Stat.resolve, Stat.unlined, Stat.function.injEq, true_and,
        strippedOption, resolveOption, unlinedOption, Option.some.injEq] at h
      have hname := rewrite_functionName number hwell.1
      simp only [Stat.rewrite, hname, rewrite_parameters number hwell.2.1, Stat.stripped,
        Stat.resolve, Stat.unlined, Stat.function.injEq, true_and, strippedOption, resolveOption,
        unlinedOption, Option.some.injEq]
      have houter : Shields
          (if isLocal then localFunctionNames (some (e.stripped .binary)) ++ scope else scope)
          (if isLocal then localFunctionNames (some (e.stripped .binary)) ++ scope'
            else scope') := by
        split
        · exact hscope.extend _
        · exact hscope
      have hsettled := e.settled_rewrite houter he hstops.left h.1
      rw [Option.some.inj hname] at hsettled
      exact ⟨hsettled, h.2.1,
        block_settled_rewrite (houter.function _ _) body hwell.2.2 hstops.right.right h.2.2⟩
  | .forRange counter first last step body, hwell, hstops, h => by
      simp only [Stat.stripped, Stat.resolve, Stat.unlined, Stat.forRange.injEq,
        Stat.rewrite] at h ⊢
      exact ⟨h.1, first.settled_rewrite hscope hwell.2.1 hstops.tail.left h.2.1,
        last.settled_rewrite hscope hwell.2.2.1 hstops.tail.right.left h.2.2.1,
        option_settled_rewrite hscope step hwell.2.2.2.1 hstops.tail.right.right.left h.2.2.2.1,
        block_settled_rewrite (hscope.extend [counter.text]) body hwell.2.2.2.2
          hstops.tail.right.right.right h.2.2.2.2⟩
  | .forEach vars iterators body, hwell, hstops, h => by
      simp only [Stat.stripped, Stat.resolve, Stat.unlined, Stat.forEach.injEq,
        Stat.rewrite] at h ⊢
      exact ⟨h.1, exprs_settled_rewrite hscope iterators hwell.2.2.2.1 hstops.right.left h.2.1,
        block_settled_rewrite (hscope.extend _) body hwell.2.2.2.2 hstops.right.right h.2.2⟩

theorem Clause.settled_rewrite {scope scope' : List String} (hscope : Shields scope scope') :
    (c : Clause) → c.WellFormed encoding → Passable c.stops →
    (c.stripped .binary).resolve scope = c.unlined →
    ((c.rewrite number).stripped .binary).resolve scope' = (c.rewrite number).unlined
  | .first condition body, hwell, hstops, h | .next condition body, hwell, hstops, h => by
      simp only [Clause.stripped, Clause.resolve, Clause.unlined, Clause.first.injEq,
        Clause.next.injEq, Clause.rewrite] at h ⊢
      exact ⟨condition.settled_rewrite hscope hwell.1 hstops.left h.1,
        block_settled_rewrite hscope body hwell.2 hstops.right h.2⟩
  | .otherwise body, hwell, hstops, h => by
      simp only [Clause.stripped, Clause.resolve, Clause.unlined, Clause.otherwise.injEq,
        Clause.rewrite] at h ⊢
      exact block_settled_rewrite hscope body hwell hstops h

theorem option_settled_rewrite {scope scope' : List String} (hscope : Shields scope scope') :
    (o : Option Expr) → optionWellFormed encoding o → Passable (optionStops o) →
    resolveOption scope (strippedOption .binary o) = unlinedOption o →
    resolveOption scope' (strippedOption .binary (rewriteOption number o)) =
      unlinedOption (rewriteOption number o)
  | none, _, _, _ => rfl
  | some e, hwell, hstops, h =>
      congrArg some (e.settled_rewrite hscope hwell hstops (Option.some.inj h))

theorem exprs_settled_rewrite {scope scope' : List String} (hscope : Shields scope scope') :
    (es : List Expr) → exprsWellFormed encoding es → Passable (exprStops es) →
    resolveExprs scope (strippedExprs .binary es) = unlinedExprs es →
    resolveExprs scope' (strippedExprs .binary (rewriteExprs number es)) =
      unlinedExprs (rewriteExprs number es)
  | [], _, _, _ => rfl
  | e :: rest, hwell, hstops, h => by
      simp only [strippedExprs, resolveExprs, unlinedExprs, List.cons.injEq, rewriteExprs] at h ⊢
      exact ⟨e.settled_rewrite hscope hwell.1 hstops.left h.1,
        exprs_settled_rewrite hscope rest hwell.2 hstops.right h.2⟩

theorem fields_settled_rewrite {scope scope' : List String} (hscope : Shields scope scope') :
    (fs : List Field) → fieldsWellFormed encoding fs → Passable (fieldStops fs) →
    resolveFields scope (strippedFields .binary fs) = unlinedFields fs →
    resolveFields scope' (strippedFields .binary (rewriteFields number fs)) =
      unlinedFields (rewriteFields number fs)
  | [], _, _, _ => rfl
  | f :: rest, hwell, hstops, h => by
      simp only [strippedFields, resolveFields, unlinedFields, List.cons.injEq,
        rewriteFields] at h ⊢
      exact ⟨f.settled_rewrite hscope hwell.1 hstops.left h.1,
        fields_settled_rewrite hscope rest hwell.2 hstops.right h.2⟩

/-- The marks of a script are settled where the names of a bundle are in scope, too. -/
theorem block_settled_rewrite {scope scope' : List String} (hscope : Shields scope scope') :
    (body : List Stat) → blockWellFormed encoding body → Passable (blockStops body) →
    Settled scope body → Settled scope' (rewriteBlock number body)
  | [], _, _, _ => rfl
  | s :: rest, hwell, hstops, h => by
      simp only [Settled, strippedBlock, resolveBlock, unlinedBlock, List.cons.injEq,
        rewriteBlock] at h ⊢
      exact ⟨s.settled_rewrite hscope hwell.1 hstops.left h.1,
        block_settled_rewrite (statement_shields number hscope hwell.1) rest hwell.2.2
          hstops.right h.2⟩

theorem clauses_settled_rewrite {scope scope' : List String} (hscope : Shields scope scope') :
    (clauses : List Clause) → clausesWellFormed encoding clauses →
    Passable (clauseStops clauses) →
    resolveClauses scope (strippedClauses .binary clauses) = unlinedClauses clauses →
    resolveClauses scope' (strippedClauses .binary (rewriteClauses number clauses)) =
      unlinedClauses (rewriteClauses number clauses)
  | [], _, _, _ => rfl
  | c :: rest, hwell, hstops, h => by
      simp only [strippedClauses, resolveClauses, unlinedClauses, List.cons.injEq,
        rewriteClauses] at h ⊢
      exact ⟨c.settled_rewrite hscope hwell.1 hstops.left h.1,
        clauses_settled_rewrite hscope rest hwell.2 hstops.right h.2⟩

end

end Settled

end Lua
end LuaBundle
