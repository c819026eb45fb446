import LuaBundle.Proofs.Bundle.Literals
import LuaBundle.Proofs.Grammar.MovedSources
import LuaBundle.Proofs.Text.Bytes

/-!
# The comment in front of a bundle

The comment that names the entry is put in front of a bundle as it is.  As long as the file
name of the entry has no line feed, the comment is one line and the bundle is read behind it
as it is read alone.  Otherwise the comment ends inside the name, and the rest of it is read
as a part of the program.
-/

namespace LuaBundle

open Lua Text

/-!
## Bytes of characters
-/

theorem feed_mem_utf8 {text : List Char} : (0x0A : UInt8) ∈ utf8 text ↔ '\n' ∈ text :=
  @mem_toBytes_ascii .utf8 text '\n' (by decide)

theorem feed_mem_ofBytes {bytes : Bytes} : '\n' ∈ ofBytes bytes ↔ (0x0A : UInt8) ∈ bytes := by
  constructor
  · intro h
    rcases List.mem_map.mp h with ⟨b, hb, heq⟩
    have hfeed : b = 0x0A := by
      rw [← UInt8.toNat_inj, ← toNat_ofByte b, heq]
      rfl
    exact hfeed ▸ hb
  · intro h
    exact List.mem_map.mpr ⟨0x0A, h, by decide⟩

/-- No byte is read as a byte order mark, and no other character starts with the byte of a
number sign. -/
theorem ofBytes_starts {encoding : Encoding} {text : List Char} (h : text.head? ≠ some '#') :
    ∀ c ∈ (ofBytes (encoding.toBytes text)).head?, c ≠ '\uFEFF' ∧ c ≠ '#' := by
  cases text with
  | nil =>
      intro c hc
      cases hc
  | cons d more =>
      rcases List.exists_cons_of_ne_nil (charBytes_ne_nil encoding d) with ⟨b, others, hbytes⟩
      intro c hc
      have hcb : c.toNat = b.toNat := by
        rw [Encoding.toBytes, List.flatMap_cons, hbytes] at hc
        cases hc
        exact toNat_ofByte b
      have hb := b.toNat_lt
      constructor
      · rintro rfl
        rw [← hcb] at hb
        revert hb
        decide
      · rintro rfl
        have hmem : b ∈ encoding.charBytes d := by rw [hbytes]; exact List.mem_cons_self
        have hd : d.toNat = b.toNat := toNat_of_mem_charBytes (by rw [← hcb]; decide) hmem
        exact h (by rw [List.head?_cons, Char.toNat_inj.mp (hd.trans hcb.symm)])

/-!
## Bundles with and without the comment

The comment is a line in front of the same bytes, unless the name of the entry breaks it.
-/

def commentText (entry : Path) (moduleCount : Nat) : String :=
  "Bundled by luapack " ++ version ++ " from " ++ entry.fileName?.getD "" ++ " ("
    ++ toString moduleCount ++ " module" ++ (if moduleCount = 1 then "" else "s") ++ ")"

theorem metadataComment_eq (entry : Path) (moduleCount : Nat) :
    (metadataComment entry moduleCount).toList =
      "-- ".toList ++ (commentText entry moduleCount).toList ++ ['\n'] := by
  have hfirst : "-- Bundled by luapack ".toList = "-- ".toList ++ "Bundled by luapack ".toList :=
    by decide
  have hlast : ")\n".toList = ")".toList ++ ['\n'] := by decide
  unfold metadataComment commentText
  simp only [String.toList_append, hfirst, hlast, List.append_assoc]

theorem feed_mem_commentText (entry : Path) (moduleCount : Nat) :
    '\n' ∈ (commentText entry moduleCount).toList ↔
      '\n' ∈ (entry.fileName?.getD "").toList := by
  have hcount : '\n' ∉ (toString moduleCount).toList := fun h => by
    have hdigit := isDigit_of_mem_toString h
    revert hdigit
    decide
  have hplural : '\n' ∉ (if moduleCount = 1 then "" else "s").toList := by
    split <;> decide
  have hfixed : '\n' ∉ "Bundled by luapack ".toList ∧ '\n' ∉ version.toList ∧
      '\n' ∉ " from ".toList ∧ '\n' ∉ " (".toList ∧ '\n' ∉ " module".toList ∧
      '\n' ∉ ")".toList := by
    decide
  unfold commentText
  simp only [String.toList_append, List.mem_append, hcount, hplural, hfixed, or_false, false_or]

theorem bundle_metadata (fs : FileSystem) (config : Config) (target : Target) :
    target.bundle fs { config with metadata := true } =
      (target.bundle fs { config with metadata := false }).map fun bundle =>
        { bundle with
          code := utf8 (metadataComment target.entry bundle.moduleCount).toList ++
            bundle.code } := by
  have hgraph : target.graph fs { config with metadata := true } =
      target.graph fs { config with metadata := false } := rfl
  unfold Target.bundle
  rw [hgraph]
  cases target.graph fs { config with metadata := false } with
  | error e => rfl
  | ok graph => simp [bind, Except.bind, pure, Except.pure, Except.map, Config.style]

/-- Whether bytes are read as others are, but one line further down. -/
def ReadsBelow (code moved : Bytes) : Prop :=
  (∀ c, parseBytes code = .ok c →
    ∃ c', parseBytes moved = .ok c' ∧ c'.body = relinedBlock (· + 1) c.body) ∧
  ∀ e, parseBytes code = .error e → ∃ e', parseBytes moved = .error e'

theorem readsBelow_line {text : List Char} {code : Bytes} (htext : '\n' ∉ text)
    (hcode : ∀ c ∈ (ofBytes code).head?, c ≠ '\uFEFF' ∧ c ≠ '#') :
    ReadsBelow code (utf8 ("-- ".toList ++ text ++ ['\n']) ++ code) := by
  have hnote : '\n' ∉ ofBytes (utf8 (' ' :: text)) := by
    rw [feed_mem_ofBytes, feed_mem_utf8]
    simpa using htext
  have hbracket : (ofBytes (utf8 (' ' :: text))).head? ≠ some '[' := by
    intro h
    cases h
  have hlines : ofBytes (utf8 ("-- ".toList ++ text ++ ['\n']) ++ code) =
      '-' :: '-' :: (ofBytes (utf8 (' ' :: text)) ++ '\n' :: ofBytes code) := by
    simp only [utf8, ofBytes, List.flatMap_append, List.map_append, List.append_assoc]
    rfl
  have hmoves : MovesTo .bytes (· + 1) (ofBytes code) _ := movesTo_of_note hnote hbracket hcode
  rw [← hlines] at hmoves
  exact hmoves

theorem bundle_starts {fs : FileSystem} {config : Config} {target : Target} {bundle : Bundle}
    (h : target.bundle fs config = .ok bundle) (hplain : config.metadata = false) :
    ∀ c ∈ (ofBytes bundle.code).head?, c ≠ '\uFEFF' ∧ c ≠ '#' := by
  rcases graph_of_bundle h hplain with ⟨x, graph, _, hgraph, _, _, hprinted⟩
  have hstarts : ∀ c ∈ (print config.style graph.chunk.body).head?, c ≠ '\uFEFF' ∧ c ≠ '#' :=
    print_starts (isProduced_of_graph hgraph).readable.wellFormed
  rw [hprinted]
  exact ofBytes_starts fun hhead => (hstarts '#' hhead).2 rfl

theorem line_starts {text : List Char} (code : Bytes) (htext : text.head? ≠ some '#') :
    ∀ c ∈ (ofBytes (utf8 (text ++ ['\n']) ++ code)).head?, c ≠ '\uFEFF' ∧ c ≠ '#' := by
  have hne : ofBytes (utf8 (text ++ ['\n'])) ≠ [] :=
    List.ne_nil_of_mem (feed_mem_ofBytes.mpr (feed_mem_utf8.mpr (by simp)))
  have hstarts : ∀ c ∈ (ofBytes (Encoding.utf8.toBytes (text ++ ['\n']))).head?,
      c ≠ '\uFEFF' ∧ c ≠ '#' := by
    apply ofBytes_starts
    cases text with
    | nil => decide
    | cons c more => exact htext
  rw [ofBytes_append, List.head?_append_of_ne_nil _ hne]
  exact hstarts

/-- A bundle with the comment is the bundle without it behind the comment, which is a line by
itself just when the file name of the entry has no line feed.  Then the bundle is read as it
is without the comment, one line further down.  Otherwise what follows the first line feed is
read with the program. -/
theorem comment_prepended {fs : FileSystem} {config : Config} {target : Target} {bundle : Bundle}
    (h : target.bundle fs { config with metadata := false } = .ok bundle) :
    ∃ (text : List Char) (marked : Bundle),
      target.bundle fs { config with metadata := true } = .ok marked ∧
      marked.code = utf8 ("-- ".toList ++ text ++ ['\n']) ++ bundle.code ∧
      ((0x0A : UInt8) ∈ utf8 ("-- ".toList ++ text) ↔
        '\n' ∈ (target.entry.fileName?.getD "").toList) ∧
      ('\n' ∉ (target.entry.fileName?.getD "").toList → ReadsBelow bundle.code marked.code) ∧
      ∀ front back, text = front ++ '\n' :: back → '\n' ∉ front → back.head? ≠ some '#' →
        ReadsBelow (utf8 (back ++ ['\n']) ++ bundle.code) marked.code := by
  have hfeed := feed_mem_commentText target.entry bundle.moduleCount
  generalize (target.entry.fileName?.getD "").toList = name at hfeed ⊢
  have hmarked : ∃ marked, target.bundle fs { config with metadata := true } = .ok marked ∧
      marked.code = utf8 ("-- ".toList ++
        (commentText target.entry bundle.moduleCount).toList ++ ['\n']) ++ bundle.code := by
    rw [bundle_metadata, h]
    refine ⟨_, rfl, ?_⟩
    rw [← metadataComment_eq]
  rcases hmarked with ⟨marked, hbundle, hcode⟩
  refine ⟨_, marked, hbundle, hcode, ?line, ?alone, ?further⟩
  case line =>
    rw [feed_mem_utf8, ← hfeed]
    simp
  case alone =>
    intro hname
    rw [hcode]
    exact readsBelow_line (fun hmem => hname (hfeed.mp hmem)) (bundle_starts h rfl)
  case further =>
    intro front back htext hfront hback
    have hsplit : utf8 ("-- ".toList ++ (front ++ '\n' :: back) ++ ['\n']) ++ bundle.code =
        utf8 ("-- ".toList ++ front ++ ['\n']) ++ (utf8 (back ++ ['\n']) ++ bundle.code) := by
      simp [utf8, List.flatMap_append]
    rw [hcode, htext, hsplit]
    exact readsBelow_line hfront (line_starts bundle.code hback)

theorem shadowTarget_prepended :
    ∃ bundle marked, shadowTarget.bundle shadowProject.files {} = .ok bundle ∧
      shadowTarget.bundle shadowProject.files { metadata := true } = .ok marked ∧
      ReadsBelow bundle.code marked.code := by
  rcases shadowTarget_succeeds with ⟨bundle, hbundle, _⟩
  have hprepended := @comment_prepended shadowProject.files {} shadowTarget bundle hbundle
  rcases hprepended with ⟨text, marked, hmarked, _, _, hreads, _⟩
  exact ⟨bundle, marked, hbundle, hmarked, hreads (by decide +kernel)⟩

def feedTarget : Target where
  entry := ⟨"/x\nlog() --.lua"⟩
  projectRoot := ⟨"/"⟩
  manifest := none

def feedFiles : FileSystem where
  entries := [(["x\nlog() --.lua"], .file (utf8 "return nil".toList))]

/-- The second half of the name is a statement in front of the program. -/
theorem feedTarget_misread :
    ∃ bundle marked, feedTarget.bundle feedFiles {} = .ok bundle ∧
      feedTarget.bundle feedFiles { metadata := true } = .ok marked ∧
      marked.code.count 0x0A = bundle.code.count 0x0A + 2 ∧
      ∃ c c', parseBytes bundle.code = .ok c ∧ parseBytes marked.code = .ok c' ∧
        c'.body.length = c.body.length + 1 := by
  have hany : ((feedTarget.bundle feedFiles {}).toOption.any fun bundle =>
      (feedTarget.bundle feedFiles { metadata := true }).toOption.any fun marked =>
        marked.code.count 0x0A == bundle.code.count 0x0A + 2 &&
          (parseBytes bundle.code).toOption.any fun c =>
            (parseBytes marked.code).toOption.any fun c' =>
              c'.body.length == c.body.length + 1) = true := by
    decide +kernel
  rcases exists_ok_of_any hany with ⟨bundle, hbundle, hany⟩
  rcases exists_ok_of_any hany with ⟨marked, hmarked, hany⟩
  rw [Bool.and_eq_true, beq_iff_eq] at hany
  rcases exists_ok_of_any hany.2 with ⟨c, hc, hsome⟩
  rcases exists_ok_of_any hsome with ⟨c', hc', hlength⟩
  exact ⟨bundle, marked, hbundle, hmarked, hany.1, c, c', hc, hc', beq_iff_eq.mp hlength⟩

end LuaBundle
