import LuaBundle.Proofs.Bundle.Assembled

/-!
# Printing and reading again

What a script or a bundle is printed as is read again as the same body, in either style: up
to the groups of sums and products that the layout does not show, which are the same for both
styles, and exactly where there are none.  Printing once more gives the same text.
-/

namespace LuaBundle

open Lua Text

/-- The pretty text of a chunk is read again and printed the same.  What is read is the body
of the chunk but for lines, unless its groups are not those of its layout. -/
theorem pretty_rereads {encoding : Encoding} {c : Chunk} (h : IsProduced encoding c) :
    ∃ again, reread encoding (print .pretty c.body) = .ok again ∧
      print .pretty again.body = print .pretty c.body ∧
      (Flat c.body → unlinedBlock again.body = unlinedBlock c.body) := by
  have hbody := h.readable
  have hnames : Prints .pretty (blockNames c.body) := fun hstyle => by cases hstyle
  rcases reread_print hbody hnames with ⟨again, hread, hsettled, hstripped⟩
  refine ⟨again, hread, print_congr hstripped .pretty, fun hflat => ?_⟩
  refine unlined_eq_of_settled hsettled hbody.settled ?_
  rw [hstripped, block_regrouped_of_flat c.body hflat]

theorem shadowProject_pretty :
    ∃ graph again, shadowProject.graph = .ok graph ∧
      reread .bytes (print .pretty graph.chunk.body) = .ok again ∧
      print .pretty again.body = print .pretty graph.chunk.body ∧
      unlinedBlock again.body = unlinedBlock graph.chunk.body := by
  rcases shadowProject_succeeds with ⟨graph, hgraph, hflat, _⟩
  rcases pretty_rereads (isProduced_of_graph hgraph) with ⟨again, hread, hprint, hbody⟩
  exact ⟨graph, again, hgraph, hread, hprint, hbody hflat⟩

/-- The compact text of a chunk with ASCII names is read as its pretty text is, and is printed
the same again. -/
theorem compact_rereads {encoding : Encoding} {c : Chunk} (h : IsProduced encoding c)
    (hnames : ∀ name ∈ blockNames c.body, isAsciiName name = true) :
    ∃ pretty compact, reread encoding (print .pretty c.body) = .ok pretty ∧
      reread encoding (print .compact c.body) = .ok compact ∧
      unlinedBlock compact.body = unlinedBlock pretty.body ∧
      print .compact compact.body = print .compact c.body := by
  have hbody := h.readable
  have hpretty : Prints .pretty (blockNames c.body) := fun hstyle => by cases hstyle
  rcases reread_print hbody hpretty with ⟨pretty, hread, hsettled, hstripped⟩
  rcases reread_print hbody fun _ => hnames with ⟨compact, hread', hsettled', hstripped'⟩
  exact ⟨pretty, compact, hread, hread',
    unlined_eq_of_settled hsettled' hsettled (hstripped'.trans hstripped.symm),
    print_congr hstripped' .compact⟩

theorem shadowProject_compact :
    ∃ graph, shadowProject.graph = .ok graph ∧
      (∀ name ∈ blockNames graph.chunk.body, isAsciiName name = true) ∧
      ∃ pretty compact, reread .bytes (print .pretty graph.chunk.body) = .ok pretty ∧
        reread .bytes (print .compact graph.chunk.body) = .ok compact ∧
        unlinedBlock compact.body = unlinedBlock pretty.body ∧
        print .compact compact.body = print .compact graph.chunk.body := by
  rcases shadowProject_succeeds with ⟨graph, hgraph, _, hnames⟩
  exact ⟨graph, hgraph, hnames, compact_rereads (isProduced_of_graph hgraph) hnames⟩

end LuaBundle
