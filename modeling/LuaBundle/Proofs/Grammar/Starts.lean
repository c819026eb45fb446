import LuaBundle.Lua.Chunk
import LuaBundle.Proofs.Grammar.Outcomes

/-!
# Where nothing starts

A statement starts with a name, a parenthesis or one of a few keywords.  In front of any
other token the grammar finds none, and leaves the choice to what stands around the block.
-/

namespace LuaBundle
namespace Lua

open LuaBundle.Lua.Parser

/-!
## Running a parser
-/

theorem bind_found {p : Parser α} {f : α → Parser β} {ts rest : List Token} {a : α}
    (h : p ts = .found a rest) : (p >>= f) ts = f a rest := by
  rw [run_bind, h]

theorem bind_absent {p : Parser α} {f : α → Parser β} {ts : List Token}
    (h : p ts = .absent) : (p >>= f) ts = .absent := by
  rw [run_bind, h]

theorem orElse_absent {p q : Parser α} {ts : List Token} (h : p ts = .absent) :
    (p <|> q) ts = q ts := by
  rw [run_orElse, h]

theorem orElse_found {p q : Parser α} {ts rest : List Token} {a : α}
    (h : p ts = .found a rest) : (p <|> q) ts = .found a rest := by
  rw [run_orElse, h]

theorem need_found {p : Parser α} {ts rest : List Token} {a : α} (h : p ts = .found a rest) :
    need p ts = .found a rest := by
  simp [need, h]

theorem failHere_found {p : Parser α} {ts rest : List Token} {a : α}
    (h : p ts = .found a rest) : failHere p ts = .found a rest := by
  simp [failHere, h]

theorem optional_found {p : Parser α} {ts rest : List Token} {a : α}
    (h : p ts = .found a rest) :
    LuaBundle.Lua.Parser.optional p ts = .found (some a) rest := by
  simp [LuaBundle.Lua.Parser.optional, h]

theorem optional_absent {p : Parser α} {ts : List Token} (h : p ts = .absent) :
    LuaBundle.Lua.Parser.optional p ts = .found none ts := by
  simp [LuaBundle.Lua.Parser.optional, h]

theorem many_absent {p : Parser α} {ts : List Token} (h : p ts = .absent) :
    many p ts = .found [] ts := by
  unfold many
  cases ts with
  | nil => rfl
  | cons t rest => simp [manyIn, h]

/-!
## Tokens that are not there
-/

theorem sign_absent {t : Token} {rest : List Token} {text : String} (h : t.is text = false) :
    sign text (t :: rest) = .absent := by
  simp [sign, tokenIf, h]

theorem sign_found {t : Token} {text : String} (h : t.is text = true) (rest : List Token) :
    sign text (t :: rest) = .found t rest := by
  simp [sign, tokenIf, h]

theorem kind_absent {t : Token} {rest : List Token} {k : Lexeme.Kind} (h : t.kind ≠ k) :
    kind k (t :: rest) = .absent := by
  simp [kind, tokenIf, h]

theorem kind_found {t : Token} {k : Lexeme.Kind} (h : t.kind = k) (rest : List Token) :
    kind k (t :: rest) = .found t rest := by
  simp [kind, tokenIf, h]

theorem name_absent {t : Token} {rest : List Token} (h : t.kind ≠ .name) :
    name (t :: rest) = .absent :=
  bind_absent (kind_absent h)

/-!
## Statements
-/

def statementStarts : List String :=
  ["(", "do", "while", "repeat", "if", "for", "function", "local", "goto", "::"]

section Absent

variable {e : Entry} {t : Token} {rest : List Token}

theorem suffixed_absent (hname : t.kind ≠ .name) (hparen : t.is "(" = false) :
    suffixed e (t :: rest) = .absent := by
  have hinner : paren e (t :: rest) = .absent := bind_absent (sign_absent hparen)
  have hfirst : (do let name ← name; return (⟨.name name, .name⟩ : Suffixed)) (t :: rest) =
      .absent := bind_absent (name_absent hname)
  exact bind_absent ((orElse_absent (bind_absent hinner)).trans hfirst)

theorem statement_absent (hname : t.kind ≠ .name)
    (h : ∀ text ∈ statementStarts, t.is text = false) : statement e (t :: rest) = .absent := by
  have hsign : ∀ text ∈ statementStarts, sign text (t :: rest) = .absent := by
    intro text htext
    exact sign_absent (h text htext)
  have hsuffixed : suffixed e (t :: rest) = .absent :=
    suffixed_absent hname (h "(" (by decide))
  refine (orElse_absent (bind_absent hsuffixed)).trans ?_
  refine (orElse_absent (bind_absent (hsign "do" (by decide)))).trans ?_
  refine (orElse_absent (bind_absent (hsign "while" (by decide)))).trans ?_
  refine (orElse_absent (bind_absent (hsign "repeat" (by decide)))).trans ?_
  refine (orElse_absent (bind_absent (hsign "if" (by decide)))).trans ?_
  refine (orElse_absent (bind_absent (hsign "for" (by decide)))).trans ?_
  refine (orElse_absent (bind_absent (hsign "for" (by decide)))).trans ?_
  refine (orElse_absent (bind_absent (hsign "function" (by decide)))).trans ?_
  refine (orElse_absent (bind_absent (hsign "local" (by decide)))).trans ?_
  refine (orElse_absent (bind_absent (hsign "local" (by decide)))).trans ?_
  refine (orElse_absent (bind_absent (hsign "goto" (by decide)))).trans ?_
  exact bind_absent (hsign "::" (by decide))

theorem lastStatement_absent (hreturn : t.is "return" = false) (hbreak : t.is "break" = false) :
    lastStatement e (t :: rest) = .absent := by
  refine (orElse_absent (bind_absent (sign_absent hreturn))).trans ?_
  exact bind_absent (sign_absent hbreak)

theorem block_empty (hname : t.kind ≠ .name)
    (h : ∀ text ∈ statementStarts, t.is text = false) (hreturn : t.is "return" = false)
    (hbreak : t.is "break" = false) : block e (t :: rest) = .found [] (t :: rest) := by
  have hbody : many (terminated (statement e)) (t :: rest) = .found [] (t :: rest) :=
    many_absent (bind_absent (statement_absent hname h))
  have hlast : LuaBundle.Lua.Parser.optional (terminated (lastStatement e)) (t :: rest) =
      .found none (t :: rest) :=
    optional_absent (bind_absent (lastStatement_absent hreturn hbreak))
  refine (bind_found hbody).trans ?_
  exact bind_found hlast

end Absent

end Lua
end LuaBundle
