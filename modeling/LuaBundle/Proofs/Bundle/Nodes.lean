import LuaBundle.Proofs.Bundle.Stops

/-!
# Stops and expressions

The stops of a tree are told from all its expressions: every call of `require` is a stop,
and so is every name, unless it is the `require` of such a call.  The expressions of a
rewritten tree are those of the tree itself, rewritten, and the calls of the loader.
-/

namespace LuaBundle
namespace Lua

def Supported (stops : List WalkStop) : Prop :=
  ∀ line, WalkStop.call (.unsupported line) ∉ stops

/-- Whether stops account for the calls of `require` and the names among expressions. -/
structure Accounts (stops : List WalkStop) (nodes : List Expr) : Prop where
  call : ∀ e ∈ nodes, ∀ call, requireCall? e = some call → .call call ∈ stops
  name : ∀ n, Expr.name n ∈ nodes → n.text = "require" ∨ .name n ∈ stops
  origin : ∀ call, WalkStop.call call ∈ stops → ∃ e ∈ nodes, requireCall? e = some call
  base : ∀ n arguments inParens line,
    Expr.call (.name n) arguments inParens line ∈ nodes → Expr.name n ∈ nodes

theorem accounts_nil : Accounts [] [] where
  call := by simp
  name := by simp
  origin := by simp
  base := by simp

theorem Accounts.append {front back : List WalkStop} {first second : List Expr}
    (h : Supported front → Accounts front first) (h' : Supported back → Accounts back second)
    (hsupported : Supported (front ++ back)) : Accounts (front ++ back) (first ++ second) := by
  have hfront := h fun line hline => hsupported line (by simp [hline])
  have hback := h' fun line hline => hsupported line (by simp [hline])
  constructor
  · intro e he call hcall
    rcases List.mem_append.mp he with he | he
    · exact List.mem_append_left _ (hfront.call e he call hcall)
    · exact List.mem_append_right _ (hback.call e he call hcall)
  · intro n hn
    rcases List.mem_append.mp hn with hn | hn
    · exact (hfront.name n hn).imp_right (List.mem_append_left _)
    · exact (hback.name n hn).imp_right (List.mem_append_right _)
  · intro call hcall
    rcases List.mem_append.mp hcall with hcall | hcall
    · rcases hfront.origin call hcall with ⟨e, he, heq⟩
      exact ⟨e, List.mem_append_left _ he, heq⟩
    · rcases hback.origin call hcall with ⟨e, he, heq⟩
      exact ⟨e, List.mem_append_right _ he, heq⟩
  · intro n arguments inParens line hn
    rcases List.mem_append.mp hn with hn | hn
    · exact List.mem_append_left _ (hfront.base n arguments inParens line hn)
    · exact List.mem_append_right _ (hback.base n arguments inParens line hn)

/-- An expression that is neither a name nor a call of `require` adds nothing. -/
theorem Accounts.cons {stops : List WalkStop} {nodes : List Expr} {e : Expr}
    (hcall : requireCall? e = none) (hname : ∀ n, e ≠ .name n)
    (hbase : ∀ n arguments inParens line,
      e = .call (.name n) arguments inParens line → Expr.name n ∈ nodes)
    (h : Accounts stops nodes) : Accounts stops (e :: nodes) := by
  constructor
  · intro e' he' call hcall'
    rcases List.mem_cons.mp he' with rfl | he'
    · rw [hcall] at hcall'
      cases hcall'
    · exact h.call e' he' call hcall'
  · intro n hn
    rcases List.mem_cons.mp hn with hn | hn
    · exact absurd hn.symm (hname n)
    · exact h.name n hn
  · intro call hcall'
    rcases h.origin call hcall' with ⟨e', he', heq⟩
    exact ⟨e', List.mem_cons_of_mem _ he', heq⟩
  · intro n arguments inParens line hn
    rcases List.mem_cons.mp hn with hn | hn
    · exact List.mem_cons_of_mem _ (hbase n arguments inParens line hn.symm)
    · exact List.mem_cons_of_mem _ (h.base n arguments inParens line hn)

theorem Accounts.names {front back : List WalkStop} {nodes : List Expr}
    (hfront : ∀ stop ∈ front, ∃ n, stop = .name n) (h : Supported back → Accounts back nodes)
    (hsupported : Supported (front ++ back)) : Accounts (front ++ back) nodes := by
  have hback := h fun line hline => hsupported line (by simp [hline])
  constructor
  · intro e he call hcall
    exact List.mem_append_right _ (hback.call e he call hcall)
  · intro n hn
    exact (hback.name n hn).imp_right (List.mem_append_right _)
  · intro call hcall
    rcases List.mem_append.mp hcall with hcall | hcall
    · rcases hfront _ hcall with ⟨n, hn⟩
      cases hn
    · exact hback.origin call hcall
  · exact hback.base

/-- The only expressions in a call of `require` besides itself are its base and literals. -/
theorem nodes_of_requireCall {base : Expr} {arguments : Args} {inParens : Bool} {line : Nat}
    {name : String} {callLine : Nat}
    (h : requireCall? (.call base arguments inParens line) = some (.module name callLine)) :
    ∃ n, base = .name n ∧ n.text = "require" ∧
      (arguments.nodes = [] ∨ ∃ literal, arguments.nodes = [.string literal]) := by
  simp only [requireCall?] at h
  split at h
  · rename_i hbase
    unfold isRequire at hbase
    split at hbase
    · rename_i n
      refine ⟨n, rfl, by simpa using hbase, ?_⟩
      split at h
      · rename_i literal
        exact Or.inr ⟨literal, by simp [Args.nodes, exprNodes, Expr.nodes]⟩
      · exact Or.inl rfl
      · cases h
    · cases hbase
  · cases h

theorem accounts_call {base : Expr} {arguments : Args} {inParens : Bool} {line : Nat}
    {call : RequireCall} (h : requireCall? (.call base arguments inParens line) = some call)
    (hsupported : Supported [.call call]) :
    Accounts [.call call]
      (.call base arguments inParens line :: base.nodes ++ arguments.nodes) := by
  cases call with
  | unsupported callLine => exact absurd (by simp) (hsupported callLine)
  | module name callLine =>
      rcases nodes_of_requireCall h with ⟨n, rfl, hn, harguments⟩
      have hnodes : ∀ e ∈ (Expr.name n).nodes ++ arguments.nodes,
          e = .name n ∨ ∃ literal, e = .string literal := by
        intro e he
        rcases List.mem_append.mp he with he | he
        · exact Or.inl (by simpa [Expr.nodes] using he)
        · rcases harguments with hnil | ⟨literal, hliteral⟩
          · simp [hnil] at he
          · exact Or.inr ⟨literal, by simpa [hliteral] using he⟩
      constructor
      · intro e he call hcall
        rw [List.cons_append] at he
        rcases List.mem_cons.mp he with rfl | he
        · rw [h, Option.some.injEq] at hcall
          simp [hcall]
        · rcases hnodes e he with rfl | ⟨literal, rfl⟩ <;> cases hcall
      · intro m hm
        rw [List.cons_append] at hm
        rcases List.mem_cons.mp hm with hm | hm
        · cases hm
        · rcases hnodes _ hm with hm | ⟨literal, hm⟩
          · cases hm
            exact Or.inl hn
          · cases hm
      · intro call hcall
        rw [List.mem_singleton, WalkStop.call.injEq] at hcall
        exact ⟨_, by simp, hcall ▸ h⟩
      · intro m arguments' inParens' line' hm
        rw [List.cons_append] at hm
        rcases List.mem_cons.mp hm with hm | hm
        · cases hm
          simp [Expr.nodes]
        · rcases hnodes _ hm with hm | ⟨literal, hm⟩ <;> cases hm

mutual

theorem Expr.accounts : (e : Expr) → Supported e.stops → Accounts e.stops e.nodes
  | .name n, _ => by
      constructor
      · intro e he call hcall
        simp only [Expr.nodes, List.mem_singleton] at he
        subst he
        cases hcall
      · intro m hm
        simp only [Expr.nodes, List.mem_singleton, Expr.name.injEq] at hm
        exact Or.inr (by simp [Expr.stops, hm])
      · intro call hcall
        simp [Expr.stops] at hcall
      · intro m arguments inParens line hm
        simp [Expr.nodes] at hm
  | .string _, _ => accounts_nil.cons rfl nofun nofun
  | .number _ _, _ => accounts_nil.cons rfl nofun nofun
  | .boolean _, _ => accounts_nil.cons rfl nofun nofun
  | .nil, _ => accounts_nil.cons rfl nofun nofun
  | .vararg _ _, _ => accounts_nil.cons rfl nofun nofun
  | .function parameters body, h =>
      (Accounts.append (exprs_account parameters) (block_accounts body) h).cons rfl nofun nofun
  | .table fields, h => (fields_account fields h).cons rfl nofun nofun
  | .binary _ left right, h =>
      (Accounts.append (Expr.accounts left) (Expr.accounts right) h).cons rfl nofun nofun
  | .unary _ operand, h => (Expr.accounts operand h).cons rfl nofun nofun
  | .member base indexer n, h => by
      have hbase := Expr.accounts base fun line hline => h line (by simp [Expr.stops, hline])
      constructor
      · intro e he call hcall
        rcases List.mem_cons.mp he with rfl | he
        · cases hcall
        · exact List.mem_append_left _ (hbase.call e he call hcall)
      · intro m hm
        rcases List.mem_cons.mp hm with hm | hm
        · cases hm
        · exact (hbase.name m hm).imp_right (List.mem_append_left _)
      · intro call hcall
        rcases List.mem_append.mp hcall with hcall | hcall
        · rcases hbase.origin call hcall with ⟨e, he, heq⟩
          exact ⟨e, List.mem_cons_of_mem _ he, heq⟩
        · simp at hcall
      · intro m arguments inParens line hm
        rcases List.mem_cons.mp hm with hm | hm
        · cases hm
        · exact List.mem_cons_of_mem _ (hbase.base m arguments inParens line hm)
  | .index base key, h =>
      (Accounts.append (Expr.accounts base) (Expr.accounts key) h).cons rfl nofun nofun
  | .call base arguments inParens line, h => by
      rw [Expr.nodes]
      rw [Expr.stops] at h ⊢
      cases hcall : requireCall? (.call base arguments inParens line) with
      | none =>
          simp only [hcall] at h ⊢
          refine (Accounts.append (Expr.accounts base) (Args.accounts arguments) h).cons hcall
            nofun ?_
          rintro n arguments' inParens' line' heq
          cases heq
          simp [Expr.nodes]
      | some call =>
          simp only [hcall] at h ⊢
          exact accounts_call hcall h

theorem Args.accounts : (arguments : Args) → Supported arguments.stops →
    Accounts arguments.stops arguments.nodes
  | .list arguments, h => exprs_account arguments h
  | .table fields, h => fields_account fields h
  | .string _, _ => accounts_nil

theorem Field.accounts : (f : Field) → Supported f.stops → Accounts f.stops f.nodes
  | .keyed key value, h => Accounts.append (Expr.accounts key) (Expr.accounts value) h
  | .named n value, h =>
      @Accounts.names [.name n] _ _ (by simp) (Expr.accounts value) h
  | .positional value, h => Expr.accounts value h

theorem Stat.accounts : (s : Stat) → Supported s.stops → Accounts s.stops s.nodes
  | .label n, h => @Accounts.names [.name n] _ _ (by simp) (fun _ => accounts_nil) h
  | .goto n, h => @Accounts.names [.name n] _ _ (by simp) (fun _ => accounts_nil) h
  | .leave, _ => accounts_nil
  | .ret values, h => exprs_account values h
  | .choice clauses, h => clauses_account clauses h
  | .whileLoop condition body, h =>
      Accounts.append (Expr.accounts condition) (block_accounts body) h
  | .block body, h => block_accounts body h
  | .repeatLoop body condition, h =>
      Accounts.append (block_accounts body) (Expr.accounts condition) h
  | .locals vars values, h => Accounts.names (by simp) (exprs_account values) h
  | .assign targets values, h =>
      Accounts.append (exprs_account targets) (exprs_account values) h
  | .call e, h => Expr.accounts e h
  | .function _ name parameters body, h => by
      rw [Stat.nodes, List.append_assoc]
      exact Accounts.append (option_accounts name)
        (Accounts.append (exprs_account parameters) (block_accounts body)) h
  | .forRange counter first last step body, h => by
      simp only [Stat.nodes, List.append_assoc]
      exact @Accounts.names [.name counter] _ _ (by simp)
        (Accounts.append (Expr.accounts first)
          (Accounts.append (Expr.accounts last)
            (Accounts.append (option_accounts step) (block_accounts body)))) h
  | .forEach vars iterators body, h =>
      Accounts.names (by simp)
        (Accounts.append (exprs_account iterators) (block_accounts body)) h

theorem Clause.accounts : (c : Clause) → Supported c.stops → Accounts c.stops c.nodes
  | .first condition body, h =>
      Accounts.append (Expr.accounts condition) (block_accounts body) h
  | .next condition body, h =>
      Accounts.append (Expr.accounts condition) (block_accounts body) h
  | .otherwise body, h => block_accounts body h

theorem option_accounts : (e : Option Expr) → Supported (optionStops e) →
    Accounts (optionStops e) (optionNodes e)
  | none, _ => accounts_nil
  | some e, h => Expr.accounts e h

theorem exprs_account : (es : List Expr) → Supported (exprStops es) →
    Accounts (exprStops es) (exprNodes es)
  | [], _ => accounts_nil
  | e :: rest, h => Accounts.append (Expr.accounts e) (exprs_account rest) h

theorem fields_account : (fs : List Field) → Supported (fieldStops fs) →
    Accounts (fieldStops fs) (fieldNodes fs)
  | [], _ => accounts_nil
  | f :: rest, h => Accounts.append (Field.accounts f) (fields_account rest) h

theorem block_accounts : (body : List Stat) → Supported (blockStops body) →
    Accounts (blockStops body) (blockNodes body)
  | [], _ => accounts_nil
  | s :: rest, h => Accounts.append (Stat.accounts s) (block_accounts rest) h

theorem clauses_account : (clauses : List Clause) → Supported (clauseStops clauses) →
    Accounts (clauseStops clauses) (clauseNodes clauses)
  | [], _ => accounts_nil
  | c :: rest, h => Accounts.append (Clause.accounts c) (clauses_account rest) h

end

/-!
## Rewritten expressions
-/

/-- Where an expression of a rewritten tree comes from: it is an expression of the tree,
rewritten, or it stands in the call that replaces a call of `require`. -/
inductive Rewritten (number : String → Nat) (nodes : List Expr) : Expr → Prop where
  | kept {e} (he : e ∈ nodes) (hcall : ∀ name line, requireCall? e ≠ some (.module name line)) :
      Rewritten number nodes (e.rewrite number)
  | replaced {e name line e'} (he : e ∈ nodes)
      (hcall : requireCall? e = some (.module name line))
      (he' : e' ∈ (replacement e (number name)).nodes) : Rewritten number nodes e'

section Rewriting

variable {number : String → Nat}

theorem Rewritten.mono {nodes nodes' : List Expr} {e : Expr} (h : Rewritten number nodes e)
    (hsub : ∀ e ∈ nodes, e ∈ nodes') : Rewritten number nodes' e := by
  cases h with
  | kept he hcall => exact .kept (hsub _ he) hcall
  | replaced he hcall he' => exact .replaced (hsub _ he) hcall he'

/-- Whether all expressions of a rewritten tree come from those of the tree. -/
def Rewrites (number : String → Nat) (nodes nodes' : List Expr) : Prop :=
  ∀ e ∈ nodes', Rewritten number nodes e

theorem rewrites_nil : Rewrites number [] [] := by
  intro e he
  simp at he

theorem Rewrites.append {front front' back back' : List Expr} (h : Rewrites number front front')
    (h' : Rewrites number back back') : Rewrites number (front ++ back) (front' ++ back') := by
  intro e he
  rcases List.mem_append.mp he with he | he
  · exact (h e he).mono fun e he => List.mem_append_left _ he
  · exact (h' e he).mono fun e he => List.mem_append_right _ he

theorem Rewrites.cons {nodes nodes' : List Expr} {e e' : Expr} (h : Rewrites number nodes nodes')
    (hcall : ∀ name line, requireCall? e ≠ some (.module name line))
    (he : e' = e.rewrite number) : Rewrites number (e :: nodes) (e' :: nodes') := by
  intro f hf
  rcases List.mem_cons.mp hf with rfl | hf
  · rw [he]
    exact .kept (by simp) hcall
  · exact (h f hf).mono fun e he => List.mem_cons_of_mem _ he

mutual

theorem Expr.rewrites : (e : Expr) → Rewrites number e.nodes (e.rewrite number).nodes
  | .name _ => rewrites_nil.cons nofun rfl
  | .string _ => rewrites_nil.cons nofun rfl
  | .number _ _ => rewrites_nil.cons nofun rfl
  | .boolean _ => rewrites_nil.cons nofun rfl
  | .nil => rewrites_nil.cons nofun rfl
  | .vararg _ _ => rewrites_nil.cons nofun rfl
  | .function parameters body =>
      ((exprs_rewrite parameters).append (block_rewrites body)).cons nofun rfl
  | .table fields => (fields_rewrite fields).cons nofun rfl
  | .binary _ left right => ((Expr.rewrites left).append (Expr.rewrites right)).cons nofun rfl
  | .unary _ operand => (Expr.rewrites operand).cons nofun rfl
  | .member base _ _ => (Expr.rewrites base).cons nofun rfl
  | .index base key => ((Expr.rewrites base).append (Expr.rewrites key)).cons nofun rfl
  | .call base arguments inParens line => by
      have hsame : ∀ hcall : ∀ name callLine,
          requireCall? (.call base arguments inParens line) ≠ some (.module name callLine),
          (Expr.call base arguments inParens line).rewrite number =
            .call (base.rewrite number) (arguments.rewrite number) inParens line := by
        intro hcall
        rw [Expr.rewrite]
        split
        · rename_i name callLine heq
          exact absurd heq (hcall name callLine)
        · rfl
      cases hcall : requireCall? (.call base arguments inParens line) with
      | none =>
          have hne : ∀ name callLine,
              requireCall? (.call base arguments inParens line) ≠ some (.module name callLine) := by
            simp [hcall]
          rw [hsame hne]
          exact ((Expr.rewrites base).append (Args.rewrites arguments)).cons hne (hsame hne).symm
      | some call =>
          cases call with
          | module name callLine =>
              intro e he
              simp only [Expr.rewrite, hcall] at he
              exact .replaced (by simp [Expr.nodes]) hcall he
          | unsupported callLine =>
              have hne : ∀ name callLine,
                  requireCall? (.call base arguments inParens line) ≠
                    some (.module name callLine) := by
                simp [hcall]
              rw [hsame hne]
              exact ((Expr.rewrites base).append (Args.rewrites arguments)).cons hne
                (hsame hne).symm

theorem Args.rewrites : (arguments : Args) →
    Rewrites number arguments.nodes (arguments.rewrite number).nodes
  | .list arguments => exprs_rewrite arguments
  | .table fields => fields_rewrite fields
  | .string _ => rewrites_nil

theorem Field.rewrites : (f : Field) → Rewrites number f.nodes (f.rewrite number).nodes
  | .keyed key value => (Expr.rewrites key).append (Expr.rewrites value)
  | .named _ value => Expr.rewrites value
  | .positional value => Expr.rewrites value

theorem Stat.rewrites : (s : Stat) → Rewrites number s.nodes (s.rewrite number).nodes
  | .label _ => rewrites_nil
  | .goto _ => rewrites_nil
  | .leave => rewrites_nil
  | .ret values => exprs_rewrite values
  | .choice clauses => clauses_rewrite clauses
  | .whileLoop condition body => (Expr.rewrites condition).append (block_rewrites body)
  | .block body => block_rewrites body
  | .repeatLoop body condition => (block_rewrites body).append (Expr.rewrites condition)
  | .locals _ values => exprs_rewrite values
  | .assign targets values => (exprs_rewrite targets).append (exprs_rewrite values)
  | .call e => Expr.rewrites e
  | .function _ name parameters body =>
      ((option_rewrites name).append (exprs_rewrite parameters)).append (block_rewrites body)
  | .forRange _ first last step body =>
      (((Expr.rewrites first).append (Expr.rewrites last)).append (option_rewrites step)).append
        (block_rewrites body)
  | .forEach _ iterators body => (exprs_rewrite iterators).append (block_rewrites body)

theorem Clause.rewrites : (c : Clause) → Rewrites number c.nodes (c.rewrite number).nodes
  | .first condition body => (Expr.rewrites condition).append (block_rewrites body)
  | .next condition body => (Expr.rewrites condition).append (block_rewrites body)
  | .otherwise body => block_rewrites body

theorem option_rewrites : (e : Option Expr) →
    Rewrites number (optionNodes e) (optionNodes (rewriteOption number e))
  | none => rewrites_nil
  | some e => Expr.rewrites e

theorem exprs_rewrite : (es : List Expr) →
    Rewrites number (exprNodes es) (exprNodes (rewriteExprs number es))
  | [] => rewrites_nil
  | e :: rest => (Expr.rewrites e).append (exprs_rewrite rest)

theorem fields_rewrite : (fs : List Field) →
    Rewrites number (fieldNodes fs) (fieldNodes (rewriteFields number fs))
  | [] => rewrites_nil
  | f :: rest => (Field.rewrites f).append (fields_rewrite rest)

theorem block_rewrites : (body : List Stat) →
    Rewrites number (blockNodes body) (blockNodes (rewriteBlock number body))
  | [] => rewrites_nil
  | s :: rest => (Stat.rewrites s).append (block_rewrites rest)

theorem clauses_rewrite : (clauses : List Clause) →
    Rewrites number (clauseNodes clauses) (clauseNodes (rewriteClauses number clauses))
  | [] => rewrites_nil
  | c :: rest => (Clause.rewrites c).append (clauses_rewrite rest)

end

theorem rewrite_eq_name {e : Expr} {n : Name} (h : e.rewrite number = .name n) : e = .name n := by
  cases e with
  | name m => simpa [Expr.rewrite] using h
  | call base arguments inParens line =>
      rw [Expr.rewrite] at h
      split at h
      · unfold replacement at h
        split at h <;> cases h
      · cases h
  | _ => simp [Expr.rewrite] at h

theorem nodes_replacement (e : Expr) (id : Nat) :
    (replacement e id).nodes = [replacement e id, localRef loaderName, numberExpr id] := by
  unfold replacement
  split <;> rfl

theorem requireCall_loader (inParens : Bool) (arguments : Args) (line : Nat) :
    requireCall? (.call (localRef loaderName) arguments inParens line) = none := by
  have hname : isRequire (localRef loaderName) = false := by decide
  simp [requireCall?, hname]

/-- No call of `require` is left where there was none without a single literal. -/
theorem requireCall_of_rewritten {stops : List WalkStop} {nodes : List Expr} {e : Expr}
    (haccounts : Accounts stops nodes) (hsupported : Supported stops)
    (h : Rewritten number nodes e) : requireCall? e = none := by
  cases h with
  | @kept e he hcall =>
      have hnone : requireCall? e = none := by
        cases heq : requireCall? e with
        | none => rfl
        | some call =>
            cases call with
            | module name line => exact absurd heq (hcall name line)
            | unsupported line => exact absurd (haccounts.call e he _ heq) (hsupported line)
      cases e with
      | call base arguments inParens line =>
          have hbase : isRequire base = false := by
            cases hbase : isRequire base with
            | false => rfl
            | true =>
                simp only [requireCall?, hbase, if_true] at hnone
                split at hnone <;> cases hnone
          have hbase' : isRequire (base.rewrite number) = false := by
            cases hbase' : isRequire (base.rewrite number) with
            | false => rfl
            | true =>
                unfold isRequire at hbase'
                split at hbase'
                · rename_i n heq
                  rw [rewrite_eq_name heq, isRequire, hbase'] at hbase
                  cases hbase
                · cases hbase'
          simp only [Expr.rewrite, hnone]
          simp [requireCall?, hbase']
      | _ => simp [Expr.rewrite, requireCall?]
  | replaced he hcall he' =>
      rw [nodes_replacement] at he'
      simp only [List.mem_cons, List.not_mem_nil, or_false] at he'
      rcases he' with rfl | rfl | rfl
      · unfold replacement
        split <;> exact requireCall_loader _ _ _
      · rfl
      · rfl

/-- Where the loader is called in a rewritten tree, a call of `require` was replaced. -/
theorem replaced_of_loader {stops : List WalkStop} {nodes : List Expr} {n : Name}
    {arguments : Args} {inParens : Bool} {line : Nat} (haccounts : Accounts stops nodes)
    (hnames : ∀ n, WalkStop.name n ∈ stops → n.text ≠ loaderName) (hn : n.text = loaderName)
    (h : Rewritten number nodes (.call (.name n) arguments inParens line)) :
    ∃ e ∈ nodes, ∃ name line', requireCall? e = some (.module name line') ∧
      replacement e (number name) = .call (.name n) arguments inParens line := by
  generalize heq : Expr.call (.name n) arguments inParens line = e' at h
  cases h with
  | @kept e he hcall =>
      exfalso
      cases e with
      | call base arguments' inParens' line' =>
          have hbase : base.rewrite number = .name n := by
            rw [Expr.rewrite] at heq
            split at heq
            · rename_i name callLine hsome
              exact absurd hsome (hcall name callLine)
            · rw [Expr.call.injEq] at heq
              exact heq.1.symm
          rw [rewrite_eq_name hbase] at he
          rcases haccounts.name _ (haccounts.base _ _ _ _ he) with hrequire | hstop
          · rw [hn] at hrequire
            exact absurd hrequire (by decide)
          · exact hnames _ hstop hn
      | _ => simp [Expr.rewrite] at heq
  | @replaced e name line' e' he hcall he' =>
      refine ⟨e, he, name, line', hcall, ?_⟩
      rw [nodes_replacement] at he'
      simp only [List.mem_cons, List.not_mem_nil, or_false] at he'
      rcases he' with rfl | rfl | rfl
      · rfl
      · cases heq
      · cases heq

end Rewriting

end Lua
end LuaBundle
