import LuaBundle.Lua.Layout
import LuaBundle.Proofs.Grammar.Starts
import LuaBundle.Proofs.Tree.WellFormed

/-!
# Tokens that read pieces

Printed pieces are cut into tokens again: every word is a token, only the sign of a shift to
the right is two.  Gaps and line breaks are no tokens.
-/

namespace LuaBundle
namespace Lua

open Text
open LuaBundle.Lua.Parser

/-!
## Words
-/

inductive Spells : String → List Token → Prop where
  | word {t : Token} (h : Alone t.kind t.text) : Spells t.text [t]
  | shift {t u : Token} (ht : t.is ">" = true) (hu : u.is ">" = true) (h : u.adjoins = true) :
      Spells ">>" [t, u]

theorem is_iff {t : Token} {text : String} :
    t.is text = true ↔ t.kind = .reserved ∧ t.text = text := by
  simp [Token.is]

theorem is_of_eq {t : Token} {text : String} (hkind : t.kind = .reserved) (htext : t.text = text) :
    t.is text = true :=
  is_iff.mpr ⟨hkind, htext⟩

theorem is_eq_false {t : Token} {text other : String} (h : t.is text = true)
    (hne : text ≠ other) : t.is other = false := by
  rcases is_iff.mp h with ⟨_, rfl⟩
  simp [Token.is, hne]

theorem is_eq_false_of_kind {t : Token} {text : String} (h : t.kind ≠ .reserved) :
    t.is text = false := by
  simp [Token.is, h]

theorem alone_reserved {text : String} (h : text ∈ keywords ∨ text ∈ signs) :
    Alone .reserved text := by
  have hcut : cutLexeme (text.toList ++ []) = some (.reserved, (text.toList, [])) := by
    rcases h with h | h
    · exact cutLexeme_of_keyword h (startsOutside_nil _)
    · exact cutLexeme_of_sign h (startsOutside_nil _)
  rw [List.append_nil] at hcut
  exact hcut

theorem Alone.unique {text : String} {k k' : Lexeme.Kind} (h : Alone k text) (h' : Alone k' text) :
    k = k' := by
  unfold Alone at h h'
  rw [h, Option.some.injEq, Prod.mk.injEq] at h'
  exact h'.1

theorem not_alone_shift (k : Lexeme.Kind) : ¬Alone k ">>" := by
  intro h
  have hcut : cutLexeme (">".toList ++ ">".toList) = some (.reserved, (">".toList, ">".toList)) :=
    cutLexeme_of_sign (by decide) (startsOutside_cons.mpr (by decide))
  have hsame : (">>" : String).toList = ">".toList ++ ">".toList := by decide
  unfold Alone at h
  rw [hsame, hcut, Option.some.injEq, Prod.mk.injEq, Prod.mk.injEq] at h
  exact absurd h.2.1 (by decide)

theorem Spells.alone {text : String} {ts : List Token} {k : Lexeme.Kind} (h : Spells text ts)
    (halone : Alone k text) : ∃ t, ts = [t] ∧ t.kind = k ∧ t.text = text := by
  cases h with
  | word h => exact ⟨_, rfl, h.unique halone, rfl⟩
  | shift => exact absurd halone (not_alone_shift k)

theorem Spells.shift_tokens {ts : List Token} (h : Spells ">>" ts) :
    ∃ t u, ts = [t, u] ∧ t.is ">" = true ∧ u.is ">" = true ∧ u.adjoins = true := by
  generalize htext : ">>" = text at h
  cases h with
  | word h =>
      rw [← htext] at h
      exact absurd h (not_alone_shift _)
  | shift ht hu hadjoins => exact ⟨_, _, rfl, ht, hu, hadjoins⟩

/-!
## Rows of pieces
-/

inductive Reads : List Piece → List Token → Prop where
  | nil : Reads [] []
  | token {text front ps ts} (h : Spells text front) (hmore : Reads ps ts) :
      Reads (.token text :: ps) (front ++ ts)
  | numeral {text front ps ts} (h : Spells text front) (hmore : Reads ps ts) :
      Reads (.numeral text :: ps) (front ++ ts)
  | gap {ps ts} (hmore : Reads ps ts) : Reads (.gap :: ps) ts
  | newline {depth ps ts} (hmore : Reads ps ts) : Reads (.newline depth :: ps) ts

theorem reads_nil {ts : List Token} : Reads [] ts ↔ ts = [] := by
  constructor
  · intro h
    cases h
    rfl
  · rintro rfl
    exact .nil

theorem reads_gap {ps : List Piece} {ts : List Token} : Reads (.gap :: ps) ts ↔ Reads ps ts := by
  constructor
  · intro h
    cases h
    assumption
  · exact .gap

theorem reads_newline {depth : Nat} {ps : List Piece} {ts : List Token} :
    Reads (.newline depth :: ps) ts ↔ Reads ps ts := by
  constructor
  · intro h
    cases h
    assumption
  · exact .newline

theorem reads_spelled {text : String} {ps : List Piece} {ts : List Token} :
    Reads (.token text :: ps) ts ↔ ∃ front more, ts = front ++ more ∧ Spells text front ∧
      Reads ps more := by
  constructor
  · intro h
    cases h with
    | token h hmore => exact ⟨_, _, rfl, h, hmore⟩
  · rintro ⟨front, more, rfl, h, hmore⟩
    exact .token h hmore

theorem reads_append {ps qs : List Piece} {ts : List Token} :
    Reads (ps ++ qs) ts ↔ ∃ front more, ts = front ++ more ∧ Reads ps front ∧ Reads qs more := by
  induction ps generalizing ts with
  | nil => simp [reads_nil]
  | cons p ps ih =>
      constructor
      · intro h
        cases h with
        | token h hmore =>
            rcases ih.mp hmore with ⟨front, more, rfl, hfront, hrest⟩
            exact ⟨_, more, (List.append_assoc ..).symm, .token h hfront, hrest⟩
        | numeral h hmore =>
            rcases ih.mp hmore with ⟨front, more, rfl, hfront, hrest⟩
            exact ⟨_, more, (List.append_assoc ..).symm, .numeral h hfront, hrest⟩
        | gap hmore =>
            rcases ih.mp hmore with ⟨front, more, rfl, hfront, hrest⟩
            exact ⟨_, more, rfl, .gap hfront, hrest⟩
        | newline hmore =>
            rcases ih.mp hmore with ⟨front, more, rfl, hfront, hrest⟩
            exact ⟨_, more, rfl, .newline hfront, hrest⟩
      · rintro ⟨front, more, rfl, hfront, hrest⟩
        cases hfront with
        | token h hmore =>
            rw [List.append_assoc]
            exact .token h (ih.mpr ⟨_, more, rfl, hmore, hrest⟩)
        | numeral h hmore =>
            rw [List.append_assoc]
            exact .numeral h (ih.mpr ⟨_, more, rfl, hmore, hrest⟩)
        | gap hmore => exact .gap (ih.mpr ⟨_, more, rfl, hmore, hrest⟩)
        | newline hmore => exact .newline (ih.mpr ⟨_, more, rfl, hmore, hrest⟩)

theorem reads_word {k : Lexeme.Kind} {text : String} {ps : List Piece} {ts : List Token}
    (halone : Alone k text) :
    Reads (.token text :: ps) ts ↔
      ∃ t more, ts = t :: more ∧ t.kind = k ∧ t.text = text ∧ Reads ps more := by
  constructor
  · intro h
    cases h with
    | token h hmore =>
        rcases h.alone halone with ⟨t, rfl, hkind, htext⟩
        exact ⟨t, _, rfl, hkind, htext, hmore⟩
  · rintro ⟨t, more, rfl, rfl, rfl, hmore⟩
    exact .token (.word halone) hmore

theorem reads_numeral {text : String} {ps : List Piece} {ts : List Token}
    (halone : Alone .number text) (h : Reads (.numeral text :: ps) ts) :
    ∃ t more, ts = t :: more ∧ t.kind = .number ∧ t.text = text ∧ Reads ps more := by
  cases h with
  | numeral h hmore =>
      rcases h.alone halone with ⟨t, rfl, hkind, htext⟩
      exact ⟨t, _, rfl, hkind, htext, hmore⟩

theorem reads_sign {text : String} {ps : List Piece} {ts : List Token}
    (h : text ∈ keywords ∨ text ∈ signs) :
    Reads (.token text :: ps) ts ↔ ∃ t more, ts = t :: more ∧ t.is text = true ∧ Reads ps more := by
  simp only [reads_word (alone_reserved h), is_iff, and_assoc]

theorem reads_enclosed {ps : List Piece} {ts : List Token} :
    Reads (enclosed true ps) ts ↔ ∃ t inner u, ts = t :: (inner ++ [u]) ∧ t.is "(" = true ∧
      Reads ps inner ∧ u.is ")" = true := by
  rw [enclosed, if_pos rfl, List.cons_append, reads_sign (Or.inr (by decide))]
  constructor
  · rintro ⟨t, more, rfl, ht, hmore⟩
    rcases reads_append.mp hmore with ⟨inner, last, rfl, hinner, hlast⟩
    rcases (reads_sign (Or.inr (by decide))).mp hlast with ⟨u, more, rfl, hu, hmore⟩
    cases hmore
    exact ⟨t, inner, u, rfl, ht, hinner, hu⟩
  · rintro ⟨t, inner, u, rfl, ht, hinner, hu⟩
    refine ⟨t, _, rfl, ht, reads_append.mpr ⟨inner, [u], rfl, hinner, ?_⟩⟩
    exact (reads_sign (Or.inr (by decide))).mpr ⟨u, [], rfl, hu, .nil⟩

theorem reads_closedBody {style : Style} {depth : Nat} {closing : String} {body : List Stat}
    {ts : List Token} (h : closing ∈ keywords)
    (hreads : Reads (closedBody depth closing body
      (blockPieces style (depth + 1) false body)) ts) :
    ∃ inner t, ts = inner ++ [t] ∧ Reads (blockPieces style (depth + 1) false body) inner ∧
      t.is closing = true := by
  have hlast : ∀ {more : List Token}, Reads [.token closing] more →
      ∃ t, more = [t] ∧ t.is closing = true := by
    intro more hmore
    rcases (reads_sign (Or.inl h)).mp hmore with ⟨t, more, rfl, ht, hmore⟩
    cases hmore
    exact ⟨t, rfl, ht⟩
  cases body with
  | nil =>
      rcases hlast (reads_gap.mp hreads) with ⟨t, rfl, ht⟩
      refine ⟨[], t, rfl, ?_, ht⟩
      rw [blockPieces]
      exact .nil
  | cons s rest =>
      rcases reads_append.mp hreads with ⟨inner, more, rfl, hinner, hmore⟩
      rcases hlast (reads_newline.mp hmore) with ⟨t, rfl, ht⟩
      exact ⟨inner, t, rfl, hinner, ht⟩

/-- Rows with commas between them: the first row, then a comma in front of every other. -/
theorem commaSeparated_cons (row : List Piece) (rows : List (List Piece)) :
    commaSeparated (row :: rows) = row ++ rows.flatMap (commaPieces ++ ·) := by
  induction rows generalizing row with
  | nil => simp [commaSeparated, List.intercalate]
  | cons next rows ih =>
      have hnext := ih next
      unfold commaSeparated at hnext ⊢
      rw [List.intercalate_cons_cons, hnext]
      simp

/-!
## Repeated parsers

Values found one after the other, with nothing more behind them.
-/

/-- What a parser finds as long as it finds something. -/
inductive Manys (p : Parser α) : List Token → List α → List Token → Prop where
  | stop {ts} (h : p ts = .absent) : Manys p ts [] ts
  | more {ts a mid as rest} (h : p ts = .found a mid) (hlength : mid.length < ts.length)
      (hmore : Manys p mid as rest) : Manys p ts (a :: as) rest

theorem manyIn_of_manys {p : Parser α} {ts rest : List Token} {as : List α}
    (h : Manys p ts as rest) (fuel : Nat) (hfuel : ts.length ≤ fuel) :
    manyIn p fuel ts = .found as rest := by
  induction h generalizing fuel with
  | stop h =>
      cases fuel with
      | zero => rfl
      | succ fuel => simp [manyIn, h]
  | more h hlength hmore ih =>
      cases fuel with
      | zero => omega
      | succ fuel =>
          simp only [manyIn, h, Parser.bind, ih fuel (by omega)]
          rfl

theorem many_of_manys {p : Parser α} {ts rest : List Token} {as : List α}
    (h : Manys p ts as rest) : many p ts = .found as rest :=
  manyIn_of_manys h ts.length (Nat.le_refl _)

inductive Grows (step : α → Parser α) : α → List Token → α → List Token → Prop where
  | refl {a ts} : Grows step a ts a ts
  | step {a ts b mid c rest} (h : step a ts = .found b mid) (hlength : mid.length < ts.length)
      (hmore : Grows step b mid c rest) : Grows step a ts c rest

theorem Grows.trans {step : α → Parser α} {a b c : α} {ts mid rest : List Token}
    (h : Grows step a ts b mid) (h' : Grows step b mid c rest) : Grows step a ts c rest := by
  induction h with
  | refl => exact h'
  | step h hlength _ ih => exact .step h hlength (ih h')

theorem Grows.last {step : α → Parser α} {a b c : α} {ts mid rest : List Token}
    (h : Grows step a ts b mid) (hstep : step b mid = .found c rest)
    (hlength : rest.length < mid.length) : Grows step a ts c rest :=
  h.trans (.step hstep hlength .refl)

theorem growIn_of_grows {step : α → Parser α} {a b : α} {ts rest : List Token}
    (h : Grows step a ts b rest) (hstop : step b rest = .absent) (fuel : Nat)
    (hfuel : ts.length ≤ fuel) : growIn step fuel a ts = .found b rest := by
  induction h generalizing fuel with
  | refl =>
      cases fuel with
      | zero => rfl
      | succ fuel => simp [growIn, hstop]
  | step h hlength hmore ih =>
      cases fuel with
      | zero => omega
      | succ fuel => simp only [growIn, h, ih hstop fuel (by omega)]

theorem grow_of_grows {step : α → Parser α} {a b : α} {ts rest : List Token}
    (h : Grows step a ts b rest) (hstop : step b rest = .absent) :
    grow step a ts = .found b rest :=
  growIn_of_grows h hstop ts.length (Nat.le_refl _)

/-!
## Rows with commas

Items that are each read by a parser are read with commas between them, when what may follow
an item includes a comma.
-/

theorem map_eq_of_forall₂ {f : α → γ} {g : β → γ} {as : List α} {bs : List β}
    (h : List.Forall₂ (fun a b => f a = g b) as bs) : as.map f = bs.map g := by
  induction h with
  | nil => rfl
  | cons h _ ih => rw [List.map_cons, List.map_cons, h, ih]

section Commas

variable {p : Parser α} {row : β → List Piece} {good : β → α → Prop} {bound : Nat}

theorem reads_commas {item : β} {items : List β} {ts : List Token}
    (h : Reads (((item :: items).map row).flatMap (commaPieces ++ ·)) ts) :
    ∃ t front back, ts = t :: (front ++ back) ∧ t.is "," = true ∧ Reads (row item) front ∧
      Reads ((items.map row).flatMap (commaPieces ++ ·)) back := by
  have hsplit : ((item :: items).map row).flatMap (commaPieces ++ ·) =
      .token "," :: .gap :: (row item ++ (items.map row).flatMap (commaPieces ++ ·)) := rfl
  rw [hsplit] at h
  rcases (reads_sign (Or.inr (by decide))).mp h with ⟨t, more, rfl, ht, hmore⟩
  rcases reads_append.mp (reads_gap.mp hmore) with ⟨front, back, rfl, hfront, hback⟩
  exact ⟨t, front, back, rfl, ht, hfront, hback⟩

theorem follows_commas (follows : List Token → Prop)
    (hcomma : ∀ t more, t.is "," = true → follows (t :: more))
    {items : List β} {rest back : List Token} (hrest : follows rest)
    (hback : Reads ((items.map row).flatMap (commaPieces ++ ·)) back) :
    follows (back ++ rest) := by
  cases items with
  | nil =>
      cases hback
      exact hrest
  | cons next items =>
      rcases reads_commas hback with ⟨u, front, others, rfl, hu, _⟩
      exact hcomma u _ hu

theorem manys_commas (follows : List Token → Prop)
    (hcomma : ∀ t more, t.is "," = true → follows (t :: more))
    {items : List β} {rest : List Token}
    (hitem : ∀ item ∈ items, ∀ ts more, Reads (row item) ts → ts.length < bound → follows more →
      ∃ a, p (ts ++ more) = .found a more ∧ good item a)
    (hrest : follows rest) (hstop : (do let _ ← sign ","; p) rest = .absent) {ts : List Token}
    (hreads : Reads ((items.map row).flatMap (commaPieces ++ ·)) ts) (hlength : ts.length ≤ bound) :
    ∃ as, Manys (do let _ ← sign ","; p) (ts ++ rest) as rest ∧ List.Forall₂ good items as := by
  induction items generalizing ts with
  | nil =>
      cases hreads
      exact ⟨[], .stop hstop, .nil⟩
  | cons item items ih =>
      rcases reads_commas hreads with ⟨t, front, back, rfl, ht, hfront, hback⟩
      simp only [List.length_cons, List.length_append] at hlength
      have hfollows := follows_commas follows hcomma hrest hback
      rcases hitem item (by simp) front (back ++ rest) hfront (by omega) hfollows with
        ⟨a, hfound, hgood⟩
      rcases ih (fun i hi => hitem i (by simp [hi])) hback (by omega) with ⟨as, hmanys, hgoods⟩
      refine ⟨a :: as, ?_, .cons hgood hgoods⟩
      rw [List.cons_append, List.append_assoc]
      refine .more ((bind_found (sign_found ht _)).trans hfound) ?_ hmanys
      simp only [List.length_cons, List.length_append]
      omega

theorem separated_found {follows : List Token → Prop}
    (hcomma : ∀ t more, t.is "," = true → follows (t :: more))
    {items : List β} {rest : List Token}
    (hitem : ∀ item ∈ items, ∀ ts more, Reads (row item) ts → ts.length < bound → follows more →
      ∃ a, p (ts ++ more) = .found a more ∧ good item a)
    (hrest : follows rest) (hstop : (do let _ ← sign ","; p) rest = .absent)
    {ts : List Token} (hne : items ≠ [])
    (hreads : Reads (commaSeparated (items.map row)) ts) (hlength : ts.length < bound) :
    ∃ as, separated p (ts ++ rest) = .found as rest ∧ List.Forall₂ good items as := by
  cases items with
  | nil => exact absurd rfl hne
  | cons item items =>
      rw [List.map_cons, commaSeparated_cons] at hreads
      rcases reads_append.mp hreads with ⟨front, back, rfl, hfront, hback⟩
      simp only [List.length_append] at hlength
      have hfollows := follows_commas follows hcomma hrest hback
      rcases hitem item (by simp) front (back ++ rest) hfront (by omega) hfollows with
        ⟨a, hfound, hgood⟩
      rcases manys_commas follows hcomma (fun i hi => hitem i (by simp [hi]))
          hrest hstop hback (by omega)
        with ⟨as, hmanys, hgoods⟩
      refine ⟨a :: as, ?_, .cons hgood hgoods⟩
      rw [List.append_assoc]
      refine (bind_found hfound).trans ?_
      exact bind_found (many_of_manys hmanys)

end Commas

end Lua
end LuaBundle
