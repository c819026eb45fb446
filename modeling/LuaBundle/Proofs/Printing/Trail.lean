import LuaBundle.Proofs.Tree.WellFormed

/-!
# What a token asks of the next one

Two tokens that are printed without anything between them must not be read as others.  For
most signs a page sees to that by itself.  What it leaves to the layout is kept in a trail:
whether the last token is a word, a sign that stands in front of an operand, or a sign that
selects a name.
-/

namespace LuaBundle
namespace Lua

open Text

/-!
## Trails

A trail is what the text so far asks of the text that follows: how the last token could go on.
-/

/-- What the last token asks of the next one. -/
inductive Trail where
  | clear
  /-- After a name, a keyword or a number. -/
  | word
  /-- After a name of any letters, which the page does not keep apart from a word. -/
  | letters
  /-- After a sign in front of an operand that must not touch certain signs. -/
  | operand
  /-- After a point or a colon that selects a name. -/
  | select
deriving DecidableEq, Repr

/-- Whether a token that starts with a character may come next.  Two words may stand side by
side only where the page puts a space between them. -/
def Trail.accepts (style : Style) (trail : Trail) (c : Char) : Bool :=
  match trail with
  | .clear => true
  | .word => !isNamePart c || (style == .compact && isWordChar c)
  | .letters => !isNamePart c
  | .operand => !(['<', '/', '!'].contains c)
  | .select => isNameStart c

/-- Whether a word that starts a text may come next. -/
def Trail.Accepts (style : Style) (trail : Trail) (word : String) : Prop :=
  ∀ c ∈ word.toList.head?, trail.accepts style c = true

def Trail.afterSign (sign : String) : Trail :=
  if sign ∈ ["<", "/", "#"] then .operand
  else if sign ∈ [".", ":"] then .select
  else .clear

theorem Trail.afterSign_cases (sign : String) :
    afterSign sign = .clear ∨ afterSign sign = .operand ∨ afterSign sign = .select := by
  unfold afterSign
  split
  · exact Or.inr (Or.inl rfl)
  · split
    · exact Or.inr (Or.inr rfl)
    · exact Or.inl rfl

def Trail.spread (style : Style) (trail : Trail) : Trail :=
  match style with
  | .pretty => .clear
  | .compact => trail

def isAsciiName (name : String) : Bool :=
  name.toList.all isWordChar

inductive Trail.Step (style : Style) (encoding : Encoding) : Trail → Piece → Trail → Prop where
  | name {trail word} (h : Spelled encoding .name word)
      (hascii : style = .compact → isAsciiName word = true) (haccepts : trail.Accepts style word) :
      Step style encoding trail (.token word) .word
  | letters {trail word} (h : Spelled encoding .name word) (haccepts : trail.Accepts style word) :
      Step style encoding trail (.token word) .letters
  | keyword {trail word} (h : word ∈ keywords) (haccepts : trail.Accepts style word) :
      Step style encoding trail (.token word) .word
  | string {trail word} (h : Spelled encoding .string word) (haccepts : trail.Accepts style word) :
      Step style encoding trail (.token word) .clear
  | sign {trail word} (h : word ∈ signs) (haccepts : trail.Accepts style word) :
      Step style encoding trail (.token word) (.afterSign word)
  | shift {trail} (haccepts : trail.Accepts style ">>") :
      Step style encoding trail (.token ">>") .clear
  | numeral {trail word} (h : Spelled encoding .number word)
      (haccepts : trail.Accepts style word) : Step style encoding trail (.numeral word) .word
  | gap {trail} : Step style encoding trail .gap (trail.spread style)
  | newline {trail depth} : Step style encoding trail (.newline depth) (trail.spread style)

inductive Trail.Flow (style : Style) (encoding : Encoding) : Trail → List Piece → Trail → Prop where
  | nil {trail} : Flow style encoding trail [] trail
  | cons {trail piece mid pieces last} (h : Step style encoding trail piece mid)
      (hmore : Flow style encoding mid pieces last) :
      Flow style encoding trail (piece :: pieces) last

theorem Trail.Flow.append {style : Style} {encoding : Encoding} {trail mid last : Trail}
    {ps qs : List Piece} (h : Flow style encoding trail ps mid)
    (h' : Flow style encoding mid qs last) : Flow style encoding trail (ps ++ qs) last := by
  induction h with
  | nil => exact h'
  | cons hstep _ ih => exact .cons hstep (ih h')

/-!
## Trails in front of phrases

An expression or a statement may stand where no word is touched and no name is selected.  It
leaves a trail that every sign may follow.
-/

def Trail.Opens (style : Style) (trail : Trail) : Prop :=
  trail = .clear ∨ trail = .operand ∨ trail = .word ∧ style = .compact

def Trail.Closed (trail : Trail) : Prop :=
  trail = .clear ∨ trail = .word

def Trail.Ready (trail : Trail) : Prop :=
  trail ≠ .select

theorem Trail.Opens.ready {style : Style} {trail : Trail} (h : trail.Opens style) :
    trail.Ready := by
  rcases h with rfl | rfl | ⟨rfl, _⟩ <;> exact Trail.noConfusion

theorem Trail.Closed.ready {trail : Trail} (h : trail.Closed) : trail.Ready := by
  rcases h with rfl | rfl <;> exact Trail.noConfusion

theorem Trail.Closed.spread {style : Style} {trail : Trail} (h : trail.Closed) :
    (trail.spread style).Opens style ∧ (trail.spread style).Closed := by
  cases style with
  | pretty => exact ⟨Or.inl rfl, Or.inl rfl⟩
  | compact => exact ⟨h.imp_right fun h => Or.inr ⟨h, rfl⟩, h⟩

theorem Trail.opens_clear (style : Style) : Trail.clear.Opens style :=
  Or.inl rfl

theorem Trail.closed_clear : Trail.clear.Closed :=
  Or.inl rfl

section Flows

variable (style : Style) (encoding : Encoding)

/-- Pieces that may follow certain trails, and leave a trail that every sign may follow. -/
def Flows (starts : Trail → Prop) (pieces : List Piece) : Prop :=
  ∀ trail, starts trail → ∃ last : Trail, last.Closed ∧ trail.Flow style encoding pieces last

variable {style encoding} {starts mid : Trail → Prop} {ps qs : List Piece}

theorem Flows.mono (h : Flows style encoding starts ps)
    (hstarts : ∀ trail, mid trail → starts trail) :
    Flows style encoding mid ps :=
  fun trail htrail => h trail (hstarts trail htrail)

theorem flows_nil : Flows style encoding Trail.Closed [] :=
  fun trail htrail => ⟨trail, htrail, .nil⟩

theorem Flows.append (h : Flows style encoding starts ps)
    (h' : Flows style encoding Trail.Closed qs) : Flows style encoding starts (ps ++ qs) := by
  intro trail htrail
  rcases h trail htrail with ⟨between, hbetween, hflow⟩
  rcases h' between hbetween with ⟨last, hlast, hmore⟩
  exact ⟨last, hlast, hflow.append hmore⟩

theorem flows_cons {piece : Piece} (after : Trail → Trail)
    (hstep : ∀ trail, starts trail → trail.Step style encoding piece (after trail) ∧
        mid (after trail))
    (hmore : Flows style encoding mid ps) : Flows style encoding starts (piece :: ps) := by
  intro trail htrail
  rcases hstep trail htrail with ⟨hstep, hmid⟩
  rcases hmore _ hmid with ⟨last, hlast, hflow⟩
  exact ⟨last, hlast, .cons hstep hflow⟩

theorem flows_gap (h : Flows style encoding (Trail.Opens style) ps) :
    Flows style encoding Trail.Closed (.gap :: ps) :=
  flows_cons (Trail.spread style) (fun _ htrail => ⟨.gap, htrail.spread.1⟩) h

theorem flows_gap_closed (h : Flows style encoding Trail.Closed ps) :
    Flows style encoding Trail.Closed (.gap :: ps) :=
  flows_cons (Trail.spread style) (fun _ htrail => ⟨.gap, htrail.spread.2⟩) h

theorem flows_newline (depth : Nat) (h : Flows style encoding (Trail.Opens style) ps) :
    Flows style encoding Trail.Closed (.newline depth :: ps) :=
  flows_cons (Trail.spread style) (fun _ htrail => ⟨.newline, htrail.spread.1⟩) h

theorem flows_newline_closed (depth : Nat) (h : Flows style encoding Trail.Closed ps) :
    Flows style encoding Trail.Closed (.newline depth :: ps) :=
  flows_cons (Trail.spread style) (fun _ htrail => ⟨.newline, htrail.spread.2⟩) h

/-!
## Words
-/

theorem accepts_opens {trail : Trail} {c : Char} (h : trail.Opens style)
    (hword : isNamePart c = true → style = .compact → isWordChar c = true)
    (hplain : ['<', '/', '!'].contains c = false) : trail.accepts style c = true := by
  rcases h with rfl | rfl | ⟨rfl, rfl⟩
  · rfl
  · simp only [Trail.accepts, hplain, Bool.not_false]
  · simp only [Trail.accepts]
    cases hpart : isNamePart c with
    | false => rfl
    | true => rw [hword hpart rfl]; rfl

theorem accepts_ready {trail : Trail} {c : Char} (h : trail.Ready) (hword : isNamePart c = false)
    (hplain : ['<', '/', '!'].contains c = false) : trail.accepts style c = true := by
  cases trail with
  | clear => rfl
  | word => simp [Trail.accepts, hword]
  | letters => simp only [Trail.accepts, hword, Bool.not_false]
  | operand => simp only [Trail.accepts, hplain, Bool.not_false]
  | select => exact absurd rfl h

theorem accepts_closed {trail : Trail} {c : Char} (h : trail.Closed)
    (hword : isNamePart c = false) : trail.accepts style c = true := by
  rcases h with rfl | rfl
  · rfl
  · simp [Trail.accepts, hword]

theorem plain_of_class {inside : Char → Bool} (hnone : ['<', '/', '!'].all (!inside ·) = true)
    {c : Char} (h : inside c = true) : ['<', '/', '!'].contains c = false := by
  cases hplain : ['<', '/', '!'].contains c with
  | false => rfl
  | true =>
      have houtside := List.all_eq_true.mp hnone c (List.contains_iff_mem.mp hplain)
      rw [h] at houtside
      cases houtside

theorem flows_name {word : String} (h : Spelled encoding .name word)
    (hascii : style = .compact → isAsciiName word = true)
    (hmore : Flows style encoding Trail.Closed ps) :
    Flows style encoding (Trail.Opens style) (.token word :: ps) := by
  refine flows_cons (fun _ => .word) (fun trail htrail => ⟨.name h hascii ?_, .inr rfl⟩) hmore
  intro c hc
  refine accepts_opens htrail (fun _ hstyle => ?_)
    (plain_of_class (by decide) (h.alone.starts c hc))
  exact List.all_eq_true.mp (hascii hstyle) c (List.mem_of_mem_head? hc)

theorem flows_selected {word : String} (h : Spelled encoding .name word)
    (hascii : style = .compact → isAsciiName word = true)
    (hmore : Flows style encoding Trail.Closed ps) :
    Flows style encoding (· = Trail.select) (.token word :: ps) := by
  refine flows_cons (fun _ => .word) (fun trail htrail => ⟨.name h hascii ?_, .inr rfl⟩) hmore
  rintro c hc
  subst htrail
  exact h.alone.starts c hc

theorem keyword_head {word : String} (h : word ∈ keywords) :
    ∀ c ∈ word.toList.head?, isWordChar c = true ∧ ['<', '/', '!'].contains c = false := by
  have hheads : ∀ word ∈ keywords, (word.toList.head?.all fun c =>
      isWordChar c && !(['<', '/', '!'].contains c)) = true := by decide
  simpa [Option.all_eq_true] using hheads word h

theorem flows_keyword (word : String) (h : word ∈ keywords)
    (hmore : Flows style encoding Trail.Closed ps) :
    Flows style encoding (Trail.Opens style) (.token word :: ps) := by
  refine flows_cons (fun _ => .word) (fun trail htrail => ⟨.keyword h ?_, .inr rfl⟩) hmore
  intro c hc
  obtain ⟨hchar, hplain⟩ := keyword_head h c hc
  exact accepts_opens htrail (fun _ _ => hchar) hplain

theorem isNamePart_of_sign {word : String} (h : word ∈ signs) :
    ∀ c ∈ word.toList.head?, isNamePart c = false := by
  have hheads : ∀ word ∈ signs, (word.toList.head?.all fun c => !isNamePart c) = true := by decide
  simpa [Option.all_eq_true] using hheads word h

def isPlainSign (word : String) : Bool :=
  word.toList.head?.all fun c => !(['<', '/', '!'].contains c)

theorem Trail.Ready.step_sign {word : String} {trail : Trail} (htrail : trail.Ready)
    (h : word ∈ signs) (hplain : isPlainSign word = true) :
    trail.Step style encoding (.token word) (.afterSign word) := by
  refine .sign h fun c hc => accepts_ready htrail (isNamePart_of_sign h c hc) ?_
  rw [isPlainSign, Option.mem_def.mp hc] at hplain
  simpa using hplain

theorem flows_sign (word : String) (h : word ∈ signs) (hplain : isPlainSign word = true)
    (hmore : Flows style encoding mid ps) (hmid : mid (.afterSign word)) :
    Flows style encoding Trail.Ready (.token word :: ps) :=
  flows_cons (fun _ => .afterSign word) (fun _ htrail => ⟨htrail.step_sign h hplain, hmid⟩) hmore

theorem flows_sign_closed {word : String} (h : word ∈ signs) (hmore : Flows style encoding mid ps)
    (hmid : mid (.afterSign word)) :
    Flows style encoding Trail.Closed (.token word :: ps) :=
  flows_cons (fun _ => .afterSign word)
    (fun _ htrail => ⟨.sign h fun c hc => accepts_closed htrail (isNamePart_of_sign h c hc), hmid⟩)
    hmore

theorem flows_string {word : String} (h : Spelled encoding .string word)
    (hmore : Flows style encoding Trail.Closed ps) :
    Flows style encoding Trail.Ready (.token word :: ps) := by
  refine flows_cons (fun _ => .clear) (fun trail htrail => ⟨.string h ?_, .inl rfl⟩) hmore
  intro c hc
  have hquote : c = '\'' ∨ c = '"' ∨ c = '[' := h.alone.starts c hc
  rcases hquote with rfl | rfl | rfl <;> exact accepts_ready htrail (by decide) (by decide)

theorem flows_numeral {word : String} (h : Spelled encoding .number word)
    (hmore : Flows style encoding Trail.Closed ps) :
    Flows style encoding (Trail.Opens style) (.numeral word :: ps) := by
  refine flows_cons (fun _ => .word) (fun trail htrail => ⟨.numeral h ?_, .inr rfl⟩) hmore
  intro c hc
  have hdigit : c.isDigit = true ∨ c = '.' := h.alone.starts c hc
  rcases hdigit with hdigit | rfl
  · exact accepts_opens htrail (fun _ _ => by simp [isWordChar, Char.isAlphanum, hdigit])
      (plain_of_class (by decide) hdigit)
  · exact accepts_opens htrail (fun h => absurd h (by decide)) (by decide)

end Flows

end Lua
end LuaBundle
