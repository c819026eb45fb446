import LuaBundle.Proofs.Grammar.Blocks

/-!
# Methods without arguments

A method is selected only to be called.  Behind a method without arguments the grammar fails,
and so does every rule around it: such a selection is not read as an expression.
-/

namespace LuaBundle
namespace Lua

open Text
open LuaBundle.Lua.Parser

/-!
## Failures

A failure ends the rules around it.
-/

section Failures

variable {ts : List Token} {line : Nat}

theorem bind_failed {p : Parser α} {f : α → Parser β} (h : p ts = .failed line) :
    (p >>= f) ts = .failed line := by
  rw [run_bind, h]

theorem orElse_failed {p q : Parser α} (h : p ts = .failed line) :
    (p <|> q) ts = .failed line := by
  rw [run_orElse, h]

theorem need_absent {p : Parser α} (h : p ts = .absent) :
    need p ts = .failed (currentLine ts) := by
  simp [need, h]

theorem optional_failed {p : Parser α} (h : p ts = .failed line) :
    LuaBundle.Lua.Parser.optional p ts = .failed line := by
  simp [LuaBundle.Lua.Parser.optional, h]

theorem growIn_failed {step : α → Parser α} {a b : α} {rest : List Token}
    (h : Grows step a ts b rest) (hstep : step b rest = .failed line) (fuel : Nat)
    (hfuel : ts.length ≤ fuel) (hrest : rest ≠ []) : growIn step fuel a ts = .failed line := by
  induction h generalizing fuel with
  | refl =>
      cases fuel with
      | zero => exact absurd (List.length_eq_zero_iff.mp (Nat.le_zero.mp hfuel)) hrest
      | succ fuel => simp [growIn, hstep]
  | step h hlength hmore ih =>
      cases fuel with
      | zero => omega
      | succ fuel => simp only [growIn, h, ih hstep fuel (by omega) hrest]

end Failures

/-!
## Rules around a failure
-/

section Rules

variable {en : Entry} {ts : List Token} {line : Nat}

theorem suffix_method {t u : Token} {rest : List Token} (ht : t.is ":" = true)
    (hu : u.kind = .name) (hrest : Lua.arguments en rest = .absent) (s : Suffixed) :
    suffix en s (t :: u :: rest) = .failed (currentLine rest) := by
  have hno := @arguments_absent_of_is en t _ ht (by decide) (by decide)
  refine (orElse_absent (bind_absent (hno _))).trans (orElse_failed ?_)
  refine (bind_found (sign_found ht _)).trans ?_
  refine (bind_found (need_found (name_found (n := ⟨u.text, false⟩) hu rfl rest))).trans ?_
  exact bind_failed (need_absent hrest)

theorem suffixed_failed {s : Suffixed} {rest : List Token} (h : Suffixes en ts s rest)
    (hstep : suffix en s rest = .failed line) (hrest : rest ≠ []) :
    suffixed en ts = .failed line := by
  rcases h with ⟨start, mid, hstart, hgrows⟩
  exact (bind_found hstart).trans (growIn_failed hgrows hstep _ (Nat.le_refl _) hrest)

theorem expression_failed (h : suffixed en ts = .failed line) (precedence : Nat) :
    expression en precedence ts = .failed line := by
  cases ts with
  | nil => cases h
  | cons t more =>
      have hne : suffixed en (t :: more) ≠ .absent := by simp [h]
      have hstart := starts_suffixed hne
      have hvalue : t.startsValue = true := by
        rcases hstart with hname | hparen
        · simp [Token.startsValue, hname]
        · simp [Token.startsValue, isOneOf_of_is hparen]
      refine bind_failed ?_
      rw [operand_eq_value hvalue, value_eq_suffixed hstart]
      exact bind_failed h

theorem block_failed {t : Token} (ht : t.is "return" = true)
    (h : en.expr 1 ts = .failed line) : block en (t :: ts) = .failed line := by
  have hname : t.kind ≠ .name := by simp [(is_iff.mp ht).1]
  have hother : ∀ text ∈ statementStarts, t.is text = false := by
    intro text htext
    refine is_eq_false ht ?_
    rintro rfl
    exact absurd htext (by decide)
  have hbody : many (terminated (statement en)) (t :: ts) = .found [] (t :: ts) :=
    many_absent (bind_absent (statement_absent hname hother))
  refine (bind_found hbody).trans (bind_failed (optional_failed (bind_failed ?_)))
  refine orElse_failed ((bind_found (sign_found ht ts)).trans (bind_failed ?_))
  exact bind_failed (optional_failed h)

end Rules

/-!
## Sources
-/

theorem program_method {style : Style} {encoding : Encoding} {base : Expr} {n : Name}
    {ts : List Token} {t : Token} (h : (Expr.member base .colon n).WellFormed encoding true)
    (hreads : Reads (.token "return" :: (Expr.member base .colon n).pieces style 0) ts)
    (ht : t.kind = .finish) : ∃ line, program (ts ++ [t]) = .error line := by
  rcases h with ⟨_, hrest, hbase, hn⟩
  rcases (reads_sign (Or.inl (by decide))).mp hreads with ⟨first, more, rfl, hfirst, hmore⟩
  rw [Expr.pieces] at hmore
  have hreread := entry_rereads style encoding (more ++ [t]).length
  have hlength : more.length ≤ (more ++ [t]).length := by simp
  rcases base_reaches hreread hrest hbase (suffixes_found hreread base hbase) hmore hlength [t]
    with ⟨back, s, hback, _, hs, _⟩
  simp (disch := decide) only [Indexer.sign, reads_sign, reads_word hn.alone, reads_nil] at hback
  rcases hback with ⟨colon, _, rfl, hcolon, method, _, rfl, hmethod, _, rfl⟩
  have hend : Lua.arguments (entry (more ++ [t]).length) [t] = .absent :=
    arguments_absent (by simp [ht]) (is_eq_false_of_kind (by simp [ht]))
      (is_eq_false_of_kind (by simp [ht]))
  have hsuffixed := suffixed_failed hs (suffix_method hcolon hmethod hend s) (by simp)
  have hblock : (entry ((first :: (more ++ [t])).length + 1)).block (first :: (more ++ [t])) =
      .failed (currentLine [t]) :=
    block_failed hfirst (expression_failed hsuffixed 1)
  refine ⟨currentLine [t], ?_⟩
  rw [List.cons_append]
  simp only [program, run_bind, hblock]

end Lua
end LuaBundle
