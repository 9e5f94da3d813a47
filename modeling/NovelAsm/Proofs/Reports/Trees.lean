import NovelAsm.Proofs.Reports.Names
import NovelAsm.Proofs.SyntaxTree.Grammar

/-!
What the lexer and the parser say. A complaint of the grammar points at a token of the text, and
the trees of the text hold its tokens in their order. Each item begins with a token that counts,
so no item is without a place, and a script reaches from its label to a later place.
-/

namespace NovelAsm

variable {allowed : Span → Prop}

namespace SyntaxTree

/-- A tree that holds a token which counts has a span. -/
theorem exists_ends_of_mem {tree : SyntaxTree} {token : Token} (h : token ∈ tree.leaves)
    (hcounts : token.isSignificant = true) (hline : token.kind ≠ .newline) :
    tree.firstSignificant?.isSome = true ∧ tree.lastSignificant?.isSome = true := by
  refine ⟨List.find?_isSome.mpr ⟨token, h, hcounts⟩,
    List.find?_isSome.mpr ⟨token, List.mem_reverse.mpr h, ?_⟩⟩
  simp [hcounts, hline]

/-- Trees that begin with a word hold it. -/
theorem Worded.exists_token {trees : List SyntaxTree} (h : Worded trees) :
    ∃ token ∈ leavesOf trees, token.isSignificant = true ∧ token.kind ≠ .newline := by
  obtain ⟨word, taken, more, rfl, htook, hkind⟩ := h
  obtain ⟨skipped, rfl, -⟩ := htook.split
  refine ⟨word, ?_, htook.significant, hkind⟩
  rw [leavesOf_append, leavesOf_tokens]
  simp

/-- The leaves of two trees of a list stand one behind the other in the list. -/
theorem pairwise_covered {trees : List SyntaxTree} (h : Covered allowed (leavesOf trees)) :
    trees.Pairwise fun first last => Covered allowed (first.leaves ++ last.leaves) := by
  induction trees with
  | nil => exact .nil
  | cons first rest ih =>
      rw [leavesOf] at h
      refine List.pairwise_cons.mpr ⟨fun last hlast => h.sublist ?_,
        ih (h.sublist (List.sublist_append_right _ _))⟩
      exact (List.Sublist.refl _).append (leaves_sublist_leavesOf hlast)

end SyntaxTree

namespace ParsedSource

open SyntaxTree NovelAsm.Parser

variable {source : Bytes} {place : Location}
  (h : Covered allowed (Lexed.read source place).all)

include h

/-- The trees of a text hold its tokens, in their order. -/
theorem read_within : (read source place).tree.Within allowed := by
  rw [SyntaxTree.Within, leaves_read]
  exact h

/-- A tree and a later item of a text. -/
theorem children_join : (read source place).tree.children.Pairwise fun first last =>
    last.kind? = some .instruction → allowed (first.span.join last.span) := by
  have hcovered : Covered allowed (leavesOf (read source place).tree.children) := by
    have hwithin : Covered allowed (read source place).tree.leaves := read_within h
    rwa [tree_read, leaves] at hwithin
  refine (List.Pairwise.and_mem.mp (pairwise_covered hcovered)).imp
    fun {first last} hpair hkind => ?_
  obtain ⟨-, hlast, hjoin⟩ := hpair
  obtain ⟨token, htoken, hcounts, hline⟩ :=
    ((read_linesBegin source place last hlast).here hkind).exists_token
  have hleaf : token ∈ last.leaves := by
    cases last with
    | token leaf => cases hkind
    | node kind children => exact htoken
  obtain ⟨hfirst, hlast⟩ := exists_ends_of_mem hleaf hcounts hline
  exact allowed_join hjoin hlast hfirst

/-- What the lexer and the parser say. -/
theorem read_early
    (hflaws : ∀ diagnostic ∈ (Lexed.read source place).diagnostics, allowed diagnostic.span) :
    (read source place).diagnostics.AllEarly allowed := by
  obtain ⟨outcome, said, hreading⟩ := exists_reading source place
  rw [hreading.diagnostics_eq]
  refine Diagnostics.AllEarly.append (fun diagnostic hmem => ?_) fun diagnostic hmem => ?_
  · obtain ⟨start, lexeme, flaw, rfl⟩ := Lexed.exists_flaw_of_mem_diagnostics hmem
    exact flaw.problem.early _ (hflaws _ hmem)
  · obtain ⟨problem, token, htoken, rfl⟩ := hreading.run.complaints diagnostic hmem
    exact problem.early _ (h.token token htoken)

end ParsedSource

end NovelAsm
