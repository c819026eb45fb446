import LuaBundle.Proofs.Grammar.Outcomes
import LuaBundle.Proofs.Tree.WellFormed

/-!
# What a parser finds

Among the tokens of a source a parser finds only values with some property.  For the parsers
that are put together from others, the property follows from those of the others.
-/

namespace LuaBundle
namespace Lua

open Text
open LuaBundle.Lua.Parser

/-!
## Tokens of a source
-/

/-- A token as the lexer gives it: a name, a number or a string is a lexeme. -/
def Token.IsGenuine (encoding : Encoding) (t : Token) : Prop :=
  t.kind = .name ∨ t.kind = .number ∨ t.kind = .string → Spelled encoding t.kind t.text

/-- Tokens as the lexer gives them. -/
def Genuine (encoding : Encoding) (ts : List Token) : Prop :=
  ∀ t ∈ ts, t.IsGenuine encoding

/-- A parser that finds only values with a property. -/
structure Yields (encoding : Encoding) (p : Parser α) (Q : α → Prop) : Prop where
  run : ∀ {ts a rest}, Genuine encoding ts → p ts = .found a rest → Q a ∧ Genuine encoding rest

section Combinators

variable {encoding : Encoding} {Q : α → Prop} {R : β → Prop}

theorem yields_pure {a : α} (h : Q a) : Yields encoding (pure a : Parser α) Q := by
  constructor
  intro ts b rest hts hrun
  cases hrun
  exact ⟨h, hts⟩

theorem Yields.mono {p : Parser α} {Q' : α → Prop} (hp : Yields encoding p Q)
    (h : ∀ a, Q a → Q' a) : Yields encoding p Q' := by
  constructor
  intro ts a rest hts hrun
  have ha := hp.run hts hrun
  exact ⟨h a ha.1, ha.2⟩

theorem Yields.bind {p : Parser α} {f : α → Parser β} (hp : Yields encoding p Q)
    (hf : ∀ a, Q a → Yields encoding (f a) R) : Yields encoding (p >>= f) R := by
  constructor
  intro ts b rest hts hrun
  rcases found_of_bind hrun with ⟨a, mid, hfirst, hmore⟩
  have ha := hp.run hts hfirst
  exact (hf a ha.1).run ha.2 hmore

theorem Yields.orElse {p q : Parser α} (hp : Yields encoding p Q) (hq : Yields encoding q Q) :
    Yields encoding (p <|> q) Q := by
  constructor
  intro ts a rest hts hrun
  rcases found_of_orElse hrun with hfirst | ⟨_, hsecond⟩
  · exact hp.run hts hfirst
  · exact hq.run hts hsecond

theorem yields_nothing : Yields encoding (nothing : Parser α) Q := by
  constructor
  intro ts a rest hts hrun
  cases hrun

theorem Yields.need {p : Parser α} (hp : Yields encoding p Q) :
    Yields encoding (Parser.need p) Q :=
  ⟨fun hts hrun => hp.run hts (found_of_need hrun)⟩

theorem Yields.needOn {p : Parser α} (hp : Yields encoding p Q) (line : Nat) :
    Yields encoding (Parser.needOn line p) Q :=
  ⟨fun hts hrun => hp.run hts (found_of_needOn hrun)⟩

theorem Yields.failHere {p : Parser α} (hp : Yields encoding p Q) :
    Yields encoding (Parser.failHere p) Q :=
  ⟨fun hts hrun => hp.run hts (found_of_failHere hrun)⟩

theorem Yields.optional {p : Parser α} (hp : Yields encoding p Q) :
    Yields encoding (LuaBundle.Lua.Parser.optional p) fun o => ∀ a ∈ o, Q a := by
  constructor
  intro ts o rest hts hrun
  rcases found_of_optional hrun with ⟨a, rfl, hfirst⟩ | ⟨rfl, _, rfl⟩
  · have ha := hp.run hts hfirst
    exact ⟨by simpa using ha.1, ha.2⟩
  · exact ⟨by simp, hts⟩

theorem yields_measured {p : Nat → Parser α} (hp : ∀ n, Yields encoding (p n) Q) :
    Yields encoding (fun ts => p ts.length ts) Q := by
  constructor
  intro ts a rest hts hrun
  exact (hp ts.length).run hts hrun

theorem yields_manyIn {p : Parser α} (hp : Yields encoding p Q) (fuel : Nat) :
    Yields encoding (manyIn p fuel) fun as => ∀ a ∈ as, Q a := by
  induction fuel with
  | zero => exact yields_pure (by simp)
  | succ fuel ih =>
      constructor
      intro ts as rest hts hrun
      rcases found_of_manyIn hrun with ⟨a, more, mid, rfl, hfirst, hmore⟩ | ⟨rfl, _, rfl⟩
      · have ha := hp.run hts hfirst
        have hrest := ih.run ha.2 hmore
        exact ⟨by simpa using ⟨ha.1, hrest.1⟩, hrest.2⟩
      · exact ⟨by simp, hts⟩

theorem Yields.many {p : Parser α} (hp : Yields encoding p Q) :
    Yields encoding (many p) fun as => ∀ a ∈ as, Q a :=
  yields_measured (yields_manyIn hp)

theorem yields_growIn {step : α → Parser α} (hstep : ∀ a, Q a → Yields encoding (step a) Q)
    (fuel : Nat) : ∀ a, Q a → Yields encoding (growIn step fuel a) Q := by
  induction fuel with
  | zero => exact fun a ha => yields_pure ha
  | succ fuel ih =>
      intro a ha
      constructor
      intro ts b rest hts hrun
      rcases found_of_growIn hrun with ⟨c, mid, hfirst, hmore⟩ | ⟨rfl, _, rfl⟩
      · have hc := (hstep a ha).run hts hfirst
        exact (ih c hc.1).run hc.2 hmore
      · exact ⟨ha, hts⟩

theorem yields_grow {step : α → Parser α} (hstep : ∀ a, Q a → Yields encoding (step a) Q) {a : α}
    (ha : Q a) : Yields encoding (grow step a) Q :=
  yields_measured fun fuel => yields_growIn hstep fuel a ha

theorem yields_tokenIf (condition : Token → Bool) :
    Yields encoding (tokenIf condition) fun t => condition t = true ∧ t.IsGenuine encoding := by
  constructor
  intro ts t rest hts hrun
  rcases found_of_tokenIf hrun with ⟨hcondition, rfl⟩
  rcases List.forall_mem_cons.mp hts with ⟨ht, hrest⟩
  exact ⟨⟨hcondition, ht⟩, hrest⟩

theorem yields_sign (text : String) : Yields encoding (sign text) fun _ => True :=
  (yields_tokenIf _).mono fun _ _ => trivial

theorem yields_kind (k : Lexeme.Kind) (hk : k = .name ∨ k = .number ∨ k = .string) :
    Yields encoding (kind k) fun t => Spelled encoding k t.text := by
  refine (yields_tokenIf _).mono ?_
  rintro t ⟨hkind, hgenuine⟩
  rw [beq_iff_eq] at hkind
  rw [← hkind] at hk ⊢
  exact hgenuine hk

theorem Yields.separated {p : Parser α} (hp : Yields encoding p Q) :
    Yields encoding (separated p) fun as => as ≠ [] ∧ ∀ a ∈ as, Q a := by
  refine hp.bind fun first hfirst => ?_
  refine ((yields_sign ",").bind fun _ _ => hp).many.bind fun more hmore => ?_
  exact yields_pure ⟨by simp, by simpa using ⟨hfirst, hmore⟩⟩

end Combinators

end Lua
end LuaBundle
