import LuaBundle.Lua.Chunk
import LuaBundle.Proofs.Grammar.Outcomes

/-!
# Faults of tokens

The tokens before a token tell whether it is at fault: whether it stands as the attribute of
a local variable, whether it stands among parameters, and whether the innermost function
around it takes further arguments.  So the faults of a source can be listed by one look at
its tokens in order, without a tree.

A parser scans tokens when the faults of what it finds are the faults of the tokens that it
consumes, in order.
-/

namespace LuaBundle
namespace Lua

open Text
open LuaBundle.Lua.Parser

/-!
## Where a token stands

The faults of a source can be told from its tokens, when it is known where each of them stands.
-/

/-- What the tokens before a token tell: where it stands with regard to declared names, and
the blocks around it, the innermost first.  A block that is the body of a function tells
whether the function declares `...`. -/
structure Standing where
  declaring : Declaring := .no
  blocks : List (Option Bool) := []

/-- Whether the innermost function around takes further arguments; outside of all functions
it is the chunk, which does. -/
def takesRestIn (blocks : List (Option Bool)) : Bool :=
  (blocks.findSome? id).getD true

def Standing.step (s : Standing) (t : Token) : Standing where
  declaring := s.declaring.step t
  blocks :=
    if t.is "function" then some false :: s.blocks
    else if t.is "do" || t.is "if" || t.is "repeat" then none :: s.blocks
    else if t.is "end" || t.is "until" then s.blocks.tail
    else if t.is "..." && s.declaring == .parameters then some true :: s.blocks.tail
    else s.blocks

def standing (front : List Token) : Standing :=
  front.foldl Standing.step {}

/-- The fault that a token is: a string with an escape without meaning, a number without a
value, an unknown attribute of a local variable, or `...` as an expression where the
innermost function does not take further arguments. -/
def Token.fault? (encoding : Encoding) (s : Standing) (t : Token) : Option Fault :=
  match t.kind with
  | .string =>
      match literalBytes encoding t.text.toList with
      | .ok _ => none
      | .error escape => some ⟨.badEscape escape, t.line⟩
  | .number =>
      match numeralValue? t.text.toList with
      | some _ => none
      | none => some ⟨.malformedNumber t.text, t.line⟩
  | .name =>
      if s.declaring = .attrib ∧ t.text ∉ knownAttributes then
        some ⟨.unknownAttribute t.text, t.line⟩
      else none
  | .reserved =>
      if t.text = "..." ∧ s.declaring ≠ .parameters ∧ takesRestIn s.blocks = false then
        some ⟨.varargOutside, t.line⟩
      else none
  | _ => none

def faultsFrom (encoding : Encoding) (s : Standing) : List Token → List Fault
  | [] => []
  | t :: rest => (t.fault? encoding s).toList ++ faultsFrom encoding (s.step t) rest

theorem faultsFrom_append {encoding : Encoding} {s : Standing} (front back : List Token) :
    faultsFrom encoding s (front ++ back) =
      faultsFrom encoding s front ++ faultsFrom encoding (front.foldl Standing.step s) back := by
  induction front generalizing s with
  | nil => rfl
  | cons t front ih =>
      rw [List.cons_append, faultsFrom, faultsFrom, ih, List.append_assoc]
      rfl

theorem faultsFrom_eq_nil {encoding : Encoding} {s : Standing} {ts : List Token} :
    faultsFrom encoding s ts = [] ↔ ∀ front t back, ts = front ++ t :: back →
      t.fault? encoding (front.foldl Standing.step s) = none := by
  induction ts generalizing s with
  | nil => simp [faultsFrom]
  | cons t rest ih =>
      rw [faultsFrom, List.append_eq_nil_iff, Option.toList_eq_nil_iff, ih]
      constructor
      · intro h front u back heq
        cases front with
        | nil =>
            cases heq
            exact h.1
        | cons v front =>
            cases heq
            exact h.2 front u back rfl
      · intro h
        exact ⟨h [] t rest rfl, fun front u back heq => h (t :: front) u back (by rw [heq]; rfl)⟩

theorem faultsFrom_eq_cons {encoding : Encoding} {s : Standing} {ts : List Token}
    {fault : Fault} {more : List Fault} (h : faultsFrom encoding s ts = fault :: more) :
    ∃ front t back, ts = front ++ t :: back ∧ faultsFrom encoding s front = [] ∧
      t.fault? encoding (front.foldl Standing.step s) = some fault := by
  induction ts generalizing s with
  | nil => cases h
  | cons t rest ih =>
      rw [faultsFrom] at h
      cases hfault : t.fault? encoding s with
      | none =>
          rw [hfault] at h
          rcases ih h with ⟨front, u, back, heq, hfront, hu⟩
          refine ⟨t :: front, u, back, by rw [heq]; rfl, ?_, hu⟩
          rw [faultsFrom, hfault, hfront]
          rfl
      | some first =>
          rw [hfault] at h
          cases h
          exact ⟨[], t, rest, rfl, rfl, hfault⟩

/-!
## Scanning parsers
-/

/-- A parser that starts where tokens stand somewhere: what it finds, the faults of the tokens
that it consumes, and where the next token stands. -/
structure Scans (encoding : Encoding) (s : Standing) (p : Parser α)
    (Q : α → List Fault → Standing → Prop) : Prop where
  run : ∀ {ts a rest}, p ts = .found a rest → ∃ fs u, Q a fs u ∧ rest <:+ ts ∧
    faultsFrom encoding s ts = fs ++ faultsFrom encoding u rest

/-- The faults are those of what is found, and the next token stands in a given place. -/
def Leaves (faults : α → List Fault) (u : Standing) : α → List Fault → Standing → Prop :=
  fun a fs v => fs = faults a ∧ v = u

section Combinators

variable {encoding : Encoding} {s u : Standing} {Q : α → List Fault → Standing → Prop}
  {R : β → List Fault → Standing → Prop}

theorem scans_pure {a : α} (h : Q a [] s) : Scans encoding s (pure a : Parser α) Q := by
  constructor
  intro ts b rest hrun
  cases hrun
  exact ⟨[], s, h, List.suffix_rfl, rfl⟩

theorem Scans.mono {p : Parser α} {Q' : α → List Fault → Standing → Prop}
    (hp : Scans encoding s p Q) (h : ∀ a fs u, Q a fs u → Q' a fs u) :
    Scans encoding s p Q' := by
  constructor
  intro ts a rest hrun
  rcases hp.run hrun with ⟨fs, u, hq, hscan⟩
  exact ⟨fs, u, h a fs u hq, hscan⟩

theorem Scans.bind {p : Parser α} {f : α → Parser β} (hp : Scans encoding s p Q)
    (hf : ∀ a fs u, Q a fs u → Scans encoding u (f a) fun b gs v => R b (fs ++ gs) v) :
    Scans encoding s (p >>= f) R := by
  constructor
  intro ts b rest hrun
  rcases found_of_bind hrun with ⟨a, mid, hfirst, hmore⟩
  rcases hp.run hfirst with ⟨fs, u, hq, hmid, hfs⟩
  rcases (hf a fs u hq).run hmore with ⟨gs, v, hr, hrest, hgs⟩
  refine ⟨fs ++ gs, v, hr, hrest.trans hmid, ?_⟩
  rw [hfs, hgs, List.append_assoc]

theorem Scans.next {p : Parser α} {f : α → Parser β} {faults : α → List Fault}
    (hp : Scans encoding s p (Leaves faults u))
    (hf : ∀ a, Scans encoding u (f a) fun b gs v => R b (faults a ++ gs) v) :
    Scans encoding s (p >>= f) R := by
  apply hp.bind
  rintro a fs v ⟨rfl, rfl⟩
  exact hf a

theorem Scans.pass {p : Parser α} {f : α → Parser β}
    (hp : Scans encoding s p (Leaves (fun _ => []) u)) (hf : ∀ a, Scans encoding u (f a) R) :
    Scans encoding s (p >>= f) R :=
  hp.next hf

theorem Scans.orElse {p q : Parser α} (hp : Scans encoding s p Q) (hq : Scans encoding s q Q) :
    Scans encoding s (p <|> q) Q := by
  constructor
  intro ts a rest hrun
  rcases found_of_orElse hrun with hfirst | ⟨_, hsecond⟩
  · exact hp.run hfirst
  · exact hq.run hsecond

theorem scans_nothing : Scans encoding s (nothing : Parser α) Q := by
  constructor
  intro ts a rest hrun
  cases hrun

theorem scans_fail : Scans encoding s (fail : Parser α) Q := by
  constructor
  intro ts a rest hrun
  cases hrun

theorem Scans.need {p : Parser α} (hp : Scans encoding s p Q) :
    Scans encoding s (Parser.need p) Q :=
  ⟨fun hrun => hp.run (found_of_need hrun)⟩

theorem Scans.needOn {p : Parser α} (hp : Scans encoding s p Q) (line : Nat) :
    Scans encoding s (Parser.needOn line p) Q :=
  ⟨fun hrun => hp.run (found_of_needOn hrun)⟩

theorem Scans.failHere {p : Parser α} (hp : Scans encoding s p Q) :
    Scans encoding s (Parser.failHere p) Q :=
  ⟨fun hrun => hp.run (found_of_failHere hrun)⟩

theorem Scans.optional {p : Parser α} {R : Option α → List Fault → Standing → Prop}
    (hp : Scans encoding s p fun a fs u => R (some a) fs u) (hnone : R none [] s) :
    Scans encoding s (LuaBundle.Lua.Parser.optional p) R := by
  constructor
  intro ts o rest hrun
  rcases found_of_optional hrun with ⟨a, rfl, hfirst⟩ | ⟨rfl, _, rfl⟩
  · exact hp.run hfirst
  · exact ⟨[], s, hnone, List.suffix_rfl, rfl⟩

theorem Scans.maybe {p : Parser α} {faults : α → List Fault}
    (hp : Scans encoding s p (Leaves faults s)) :
    Scans encoding s (LuaBundle.Lua.Parser.optional p)
      (Leaves (fun o => o.elim [] faults) s) :=
  Scans.optional hp ⟨rfl, rfl⟩

theorem scans_measured {p : Nat → Parser α} (hp : ∀ n, Scans encoding s (p n) Q) :
    Scans encoding s (fun ts => p ts.length ts) Q := by
  constructor
  intro ts a rest hrun
  exact (hp ts.length).run hrun

theorem scans_manyIn {p : Parser α} {faults : α → List Fault} {Place : Standing → Prop}
    (hp : ∀ s, Place s → Scans encoding s p fun a fs u => fs = faults a ∧ Place u)
    (fuel : Nat) : ∀ s, Place s →
      Scans encoding s (manyIn p fuel) fun as fs u => fs = as.flatMap faults ∧ Place u := by
  induction fuel with
  | zero => exact fun s hs => scans_pure ⟨rfl, hs⟩
  | succ fuel ih =>
      intro s hs
      constructor
      intro ts as rest hrun
      rcases found_of_manyIn hrun with ⟨a, more, mid, rfl, hfirst, hmore⟩ | ⟨rfl, _, rfl⟩
      · rcases (hp s hs).run hfirst with ⟨fs, u, ⟨rfl, hu⟩, hmid, hfs⟩
        rcases (ih u hu).run hmore with ⟨gs, v, ⟨rfl, hv⟩, hrest, hgs⟩
        refine ⟨_, v, ⟨rfl, hv⟩, hrest.trans hmid, ?_⟩
        rw [hfs, hgs, List.flatMap_cons, List.append_assoc]
      · exact ⟨[], s, ⟨rfl, hs⟩, List.suffix_rfl, rfl⟩

theorem scans_many {p : Parser α} {faults : α → List Fault} {Place : Standing → Prop}
    (hp : ∀ s, Place s → Scans encoding s p fun a fs u => fs = faults a ∧ Place u)
    (hs : Place s) :
    Scans encoding s (many p) fun as fs u => fs = as.flatMap faults ∧ Place u :=
  scans_measured fun fuel => scans_manyIn hp fuel s hs

theorem Scans.many {p : Parser α} {faults : α → List Fault}
    (hp : Scans encoding s p (Leaves faults s)) :
    Scans encoding s (Parser.many p) (Leaves (fun as => as.flatMap faults) s) := by
  have hround : ∀ u, u = s → Scans encoding u p fun a fs v => fs = faults a ∧ v = s := by
    rintro u rfl
    exact hp
  exact scans_many hround rfl

theorem scans_growIn {step : α → Parser α} {faults : α → List Fault}
    (hstep : ∀ a, Scans encoding s (step a) fun b fs u => faults b = faults a ++ fs ∧ u = s)
    (fuel : Nat) : ∀ a, Scans encoding s (growIn step fuel a)
      fun b fs u => faults b = faults a ++ fs ∧ u = s := by
  induction fuel with
  | zero => exact fun a => scans_pure ⟨(List.append_nil _).symm, rfl⟩
  | succ fuel ih =>
      intro a
      constructor
      intro ts b rest hrun
      rcases found_of_growIn hrun with ⟨c, mid, hfirst, hmore⟩ | ⟨rfl, _, rfl⟩
      · rcases (hstep a).run hfirst with ⟨fs, u, ⟨hc, rfl⟩, hmid, hfs⟩
        rcases (ih c).run hmore with ⟨gs, v, ⟨hb, rfl⟩, hrest, hgs⟩
        refine ⟨fs ++ gs, v, ⟨?_, rfl⟩, hrest.trans hmid, ?_⟩
        · rw [hb, hc, List.append_assoc]
        · rw [hfs, hgs, List.append_assoc]
      · exact ⟨[], s, ⟨(List.append_nil _).symm, rfl⟩, List.suffix_rfl, rfl⟩

theorem scans_grow {step : α → Parser α} {faults : α → List Fault}
    (hstep : ∀ a, Scans encoding s (step a) fun b fs u => faults b = faults a ++ fs ∧ u = s)
    (a : α) : Scans encoding s (grow step a) fun b fs u => faults b = faults a ++ fs ∧ u = s :=
  scans_measured fun fuel => scans_growIn hstep fuel a

theorem scans_tokenIf {condition : Token → Bool} {faults : Token → List Fault}
    (h : ∀ t, condition t = true → (t.fault? encoding s).toList = faults t ∧ s.step t = u) :
    Scans encoding s (tokenIf condition) (Leaves faults u) := by
  constructor
  intro ts t rest hrun
  rcases found_of_tokenIf hrun with ⟨hcondition, rfl⟩
  have ht := h t hcondition
  refine ⟨faults t, u, ⟨rfl, rfl⟩, List.suffix_cons t rest, ?_⟩
  rw [faultsFrom, ht.1, ht.2]

theorem scans_separated {p : Parser α} {faults : α → List Fault}
    (hp : Scans encoding s p (Leaves faults u))
    (hmore : Scans encoding u (do let _ ← sign ","; p) (Leaves faults u)) :
    Scans encoding s (separated p) (Leaves (fun as => as.flatMap faults) u) := by
  refine hp.next fun first => ?_
  refine hmore.many.next fun more => scans_pure ?_
  exact ⟨by simp, rfl⟩

end Combinators

/-!
## Keywords and signs
-/

/-- Where a statement may start: no declared name stands there unless a comma comes first. -/
inductive Declaring.Idle : Declaring → Prop
  | no : Declaring.Idle .no
  | afterName : Declaring.Idle .afterName

/-- The faults are those of what is found, and a statement may follow in the given blocks. -/
def LeavesIdle (faults : α → List Fault) (blocks : List (Option Bool)) :
    α → List Fault → Standing → Prop :=
  fun a fs v => fs = faults a ∧ ∃ d : Declaring, d.Idle ∧ v = ⟨d, blocks⟩

/-- The words that open or close a block or start declared names, and `...`. -/
def markers : List String :=
  ["function", "do", "if", "repeat", "end", "until", "local", "for", "..."]

section Signs

variable {encoding : Encoding} {d : Declaring} {blocks : List (Option Bool)} {text : String}

theorem Scans.idle {s : Standing} {p : Parser α} {f : α → Parser β} {faults : α → List Fault}
    {R : β → List Fault → Standing → Prop} (hp : Scans encoding s p (LeavesIdle faults blocks))
    (hf : ∀ a d, d.Idle →
      Scans encoding ⟨d, blocks⟩ (f a) fun b gs v => R b (faults a ++ gs) v) :
    Scans encoding s (p >>= f) R := by
  apply hp.bind
  rintro a fs v ⟨rfl, d, hd, rfl⟩
  exact hf a d hd

/-- A keyword or sign other than `...` is no fault, and where the next token stands depends on
its text only. -/
theorem scans_sign {s u : Standing} (hrest : text ≠ "...")
    (h : ∀ line adjoins, s.step ⟨.reserved, text, line, adjoins⟩ = u) :
    Scans encoding s (sign text) (Leaves (fun _ => []) u) := by
  apply scans_tokenIf
  rintro ⟨kind, word, line, adjoins⟩ ht
  simp only [Token.is, Bool.and_eq_true, beq_iff_eq] at ht
  rcases ht with ⟨rfl, rfl⟩
  constructor
  · simp [Token.fault?, hrest]
  · exact h line adjoins

/-- A word that is no marker is no fault, and changes nothing where no name is declared. -/
theorem passes_plain {t : Token} (hkind : t.kind = .reserved) (h : t.text ∉ markers) :
    (t.fault? encoding ⟨.no, blocks⟩).toList = [] ∧
      Standing.step ⟨.no, blocks⟩ t = ⟨.no, blocks⟩ := by
  simp only [markers, List.mem_cons, List.not_mem_nil, or_false, not_or] at h
  constructor
  · simp [Token.fault?, hkind, h]
  · simp [Standing.step, Declaring.step, Declaring.start, Token.is, hkind, h]

theorem scans_plain (h : text ∉ markers) :
    Scans encoding ⟨.no, blocks⟩ (sign text) (Leaves (fun _ => []) ⟨.no, blocks⟩) := by
  apply scans_tokenIf
  intro t ht
  simp only [Token.is, Bool.and_eq_true, beq_iff_eq] at ht
  exact passes_plain ht.1 (ht.2 ▸ h)

/-- After a declared name all signs but a comma and `<` end the declaration. -/
theorem scans_idle (hd : d.Idle) (h : text ∉ "," :: "<" :: markers) :
    Scans encoding ⟨d, blocks⟩ (sign text) (Leaves (fun _ => []) ⟨.no, blocks⟩) := by
  simp only [List.mem_cons, not_or] at h
  cases hd with
  | no => exact scans_plain h.2.2
  | afterName =>
      have hplain := h.2.2
      simp only [markers, List.mem_cons, List.not_mem_nil, or_false, not_or] at hplain
      apply scans_sign hplain.2.2.2.2.2.2.2.2
      intro line adjoins
      simp [Standing.step, Declaring.step, Declaring.start, Token.is, h.1, h.2.1, hplain]

theorem scans_open (hd : d.Idle) (h : text ∈ ["do", "if", "repeat"]) :
    Scans encoding ⟨d, blocks⟩ (sign text) (Leaves (fun _ => []) ⟨.no, none :: blocks⟩) := by
  simp only [List.mem_cons, List.not_mem_nil, or_false] at h
  rcases h with rfl | rfl | rfl <;> cases hd <;>
    exact scans_sign (by decide) fun _ _ => by
      simp [Standing.step, Declaring.step, Declaring.start, Token.is]

theorem scans_close {block : Option Bool} (hd : d.Idle) (h : text ∈ ["end", "until"]) :
    Scans encoding ⟨d, block :: blocks⟩ (sign text) (Leaves (fun _ => []) ⟨.no, blocks⟩) := by
  simp only [List.mem_cons, List.not_mem_nil, or_false] at h
  rcases h with rfl | rfl <;> cases hd <;>
    exact scans_sign (by decide) fun _ _ => by
      simp [Standing.step, Declaring.step, Declaring.start, Token.is]

theorem scans_function (hd : d.Idle ∨ d = .afterLocal) :
    Scans encoding ⟨d, blocks⟩ (sign "function")
      (Leaves (fun _ => []) ⟨.header, some false :: blocks⟩) := by
  rcases hd with (_ | _) | rfl <;>
    exact scans_sign (by decide) fun _ _ => by
      simp [Standing.step, Declaring.step, Declaring.start, Token.is]

theorem scans_local (hd : d.Idle) :
    Scans encoding ⟨d, blocks⟩ (sign "local") (Leaves (fun _ => []) ⟨.afterLocal, blocks⟩) := by
  cases hd <;>
    exact scans_sign (by decide) fun _ _ => by
      simp [Standing.step, Declaring.step, Declaring.start, Token.is]

theorem scans_for (hd : d.Idle) :
    Scans encoding ⟨d, blocks⟩ (sign "for") (Leaves (fun _ => []) ⟨.name, blocks⟩) := by
  cases hd <;>
    exact scans_sign (by decide) fun _ _ => by
      simp [Standing.step, Declaring.step, Declaring.start, Token.is]

theorem scans_nameComma :
    Scans encoding ⟨.afterName, blocks⟩ (sign ",") (Leaves (fun _ => []) ⟨.name, blocks⟩) :=
  scans_sign (by decide) fun _ _ => by simp [Standing.step, Declaring.step, Token.is]

theorem scans_attribOpening :
    Scans encoding ⟨.afterName, blocks⟩ (sign "<") (Leaves (fun _ => []) ⟨.attrib, blocks⟩) :=
  scans_sign (by decide) fun _ _ => by simp [Standing.step, Declaring.step, Token.is]

theorem scans_attribClosing :
    Scans encoding ⟨.attrib, blocks⟩ (sign ">") (Leaves (fun _ => []) ⟨.afterName, blocks⟩) :=
  scans_sign (by decide) fun _ _ => by simp [Standing.step, Declaring.step, Token.is]

theorem scans_header (h : text ∈ [".", ":"]) :
    Scans encoding ⟨.header, blocks⟩ (sign text) (Leaves (fun _ => []) ⟨.header, blocks⟩) := by
  simp only [List.mem_cons, List.not_mem_nil, or_false] at h
  rcases h with rfl | rfl <;>
    exact scans_sign (by decide) fun _ _ => by simp [Standing.step, Declaring.step, Token.is]

theorem scans_parametersOpening :
    Scans encoding ⟨.header, blocks⟩ (sign "(") (Leaves (fun _ => []) ⟨.parameters, blocks⟩) :=
  scans_sign (by decide) fun _ _ => by simp [Standing.step, Declaring.step, Token.is]

theorem scans_parametersComma :
    Scans encoding ⟨.parameters, blocks⟩ (sign ",")
      (Leaves (fun _ => []) ⟨.parameters, blocks⟩) :=
  scans_sign (by decide) fun _ _ => by simp [Standing.step, Declaring.step, Token.is]

theorem scans_parametersClosing :
    Scans encoding ⟨.parameters, blocks⟩ (sign ")") (Leaves (fun _ => []) ⟨.no, blocks⟩) :=
  scans_sign (by decide) fun _ _ => by simp [Standing.step, Declaring.step, Token.is]

theorem scans_name {d' : Declaring} (hd : d ≠ .attrib)
    (h : ∀ t : Token, t.kind = .name → d.step t = d') :
    Scans encoding ⟨d, blocks⟩ name (Leaves (fun _ => []) ⟨d', blocks⟩) := by
  have htoken : Scans encoding ⟨d, blocks⟩ (kind .name) (Leaves (fun _ => []) ⟨d', blocks⟩) := by
    apply scans_tokenIf
    intro t ht
    have hname : t.kind = .name := beq_iff_eq.mp ht
    constructor
    · simp [Token.fault?, hname, hd]
    · simp [Standing.step, Token.is, hname, h t hname]
  exact htoken.pass fun t => scans_pure ⟨rfl, rfl⟩

theorem scans_used (hd : d.Idle) :
    Scans encoding ⟨d, blocks⟩ name (Leaves (fun _ => []) ⟨.no, blocks⟩) := by
  cases hd with
  | no =>
      apply scans_name (by decide)
      intro t ht
      simp [Declaring.step, Declaring.start, Token.is, ht]
  | afterName =>
      apply scans_name (by decide)
      intro t ht
      simp [Declaring.step, Declaring.start, Token.is, ht]

theorem scans_declared (hd : d = .afterLocal ∨ d = .name) :
    Scans encoding ⟨d, blocks⟩ name (Leaves (fun _ => []) ⟨.afterName, blocks⟩) := by
  rcases hd with rfl | rfl
  · apply scans_name (by decide)
    intro t ht
    simp [Declaring.step, ht]
  · apply scans_name (by decide)
    intro t ht
    simp [Declaring.step, ht]

theorem scans_functionName (hd : d = .header ∨ d = .parameters) :
    Scans encoding ⟨d, blocks⟩ name (Leaves (fun _ => []) ⟨d, blocks⟩) := by
  rcases hd with rfl | rfl
  · apply scans_name (by decide)
    intro t ht
    simp [Declaring.step, Token.is, ht]
  · apply scans_name (by decide)
    intro t ht
    simp [Declaring.step, Token.is, ht]

end Signs

end Lua
end LuaBundle
