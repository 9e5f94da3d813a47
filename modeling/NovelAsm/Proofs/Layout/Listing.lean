import Mathlib
import NovelAsm.Proofs.Layout.Parsing
import NovelAsm.Proofs.Layout.Resolution
import NovelAsm.Proofs.Session.WholeFile
import NovelAsm.Proofs.Token.Clean

/-!
Layout and the units of a text. Line ends inside brackets, except right before an operand of one
token, change nothing about a text that is listed without a complaint but the places of what is
found in it.
-/

namespace NovelAsm

open Cursor SyntaxTree

theorem Cursor.Widened.mem {depth : Nat} {tokens wider : List Token}
    (h : Widened depth tokens wider) :
    ∀ token ∈ wider, token ∈ tokens ∨ token.kind = .newline := by
  induction h with
  | nil => exact fun token hmem => .inl hmem
  | keep _ ih =>
      intro token hmem
      rcases List.mem_cons.mp hmem with rfl | hmem
      · exact .inl (List.mem_cons_self ..)
      · exact (ih token hmem).imp_left (List.mem_cons_of_mem _)
  | insert _ hkind _ _ ih =>
      intro token hmem
      rcases List.mem_cons.mp hmem with rfl | hmem
      · exact .inr hkind
      · exact ih token hmem

namespace ParsedSource

/-- A text that is parsed without a complaint still is so when its lines are broken inside
brackets, and the same items are found in it. -/
theorem read_widened {source wider : Bytes}
    (h : Widened 0 (Lexed.bares 0 source) (Lexed.bares 0 wider))
    (hclean : (read source .origin).diagnostics = []) :
    (read wider .origin).diagnostics = [] ∧
      joinedAll false (read wider .origin).tree.children =
        joinedAll false (read source .origin).tree.children := by
  obtain ⟨outcome, said, hreading⟩ := exists_reading source .origin
  obtain ⟨result, more, hwider⟩ := exists_reading wider .origin
  obtain ⟨hflawless, rfl⟩ := (diagnostics_eq_nil_iff_said hreading).mp hclean
  have hflawlessWider := hflawless.of_mem h.mem
  have hsame : settle 0 (before wider .origin).view = settle 0 (before source .origin).view := by
    rw [view_before, view_before]
    exact h.settle_eq
  obtain ⟨hjoined, -, rfl⟩ := hreading.compare hwider Parser.withoutLayout
    ⟨before_sound .origin hflawless, before_sound .origin hflawlessWider, rfl, hsame⟩
    (hreading.clean_eq.trans (by rw [hclean]; rfl))
  refine ⟨(diagnostics_eq_nil_iff_said hwider).mpr ⟨hflawlessWider, rfl⟩, ?_⟩
  rw [joinedAll_congr_core hreading.coreAll_children, joinedAll_congr_core hwider.coreAll_children]
  have hgrown := hreading.run.reached.grown
  have hgrownWider := hwider.run.reached.grown
  exact hjoined (fun tree htree => (hgrown tree htree).imp fun _ => Grown.unclean)
    fun tree htree => (hgrownWider tree htree).imp fun _ => Grown.unclean

end ParsedSource

namespace Diagnostics

theorem sortByPlace_eq_nil_iff {diagnostics : Diagnostics} :
    diagnostics.sortByPlace = [] ↔ diagnostics = [] := by
  rw [← List.length_eq_zero_iff, ← List.length_eq_zero_iff, sortByPlace, List.length_mergeSort]

theorem bare_eq_nil_iff {diagnostics : Diagnostics} : bare diagnostics = [] ↔ diagnostics = [] :=
  List.map_eq_nil_iff

end Diagnostics

namespace Listing

open Session

theorem diagnostics_eq_nil_iff (source : Bytes) :
    (ofSource source).diagnostics = [] ↔
      (ParsedSource.read source .origin).diagnostics = [] ∧
        (wholeDeclarations source).2 = [] ∧ (wholeRoutines source).2 = [] ∧
        Routine.reports (wholeRoutines source).1 = [] := by
  have hdiagnostics : (ofSource source).diagnostics =
      Diagnostics.sortByPlace ((ParsedSource.read source .origin).diagnostics
        ++ (wholeDeclarations source).2 ++ (wholeRoutines source).2
        ++ ((wholeRoutines source).1.map Routine.lower).flatMap Prod.snd) := rfl
  rw [hdiagnostics, Diagnostics.sortByPlace_eq_nil_iff, List.flatMap_map, List.append_eq_nil_iff,
    List.append_eq_nil_iff, List.append_eq_nil_iff, and_assoc, and_assoc]
  rfl

theorem units_bare (source : Bytes) :
    (ofSource source).units.map CodeUnit.bare =
      ((wholeRoutines source).1.map Routine.bare).map fun routine => routine.lower.1 := by
  have hunits : (ofSource source).units =
      ((wholeRoutines source).1.map Routine.lower).map Prod.fst :=
    rfl
  rw [hunits, List.map_map, List.map_map, List.map_map]
  refine List.map_congr_left fun routine _ => ?_
  simp only [Function.comp_apply, Routine.lower_bare]

/-- What is declared in a text, and the routines in it, can be told from its joined items. -/
theorem wholeDeclarations_congr {source wider : Bytes}
    (h : joinedAll false (ParsedSource.read wider .origin).tree.children =
      joinedAll false (ParsedSource.read source .origin).tree.children) :
    ((wholeDeclarations wider).1.bare, Diagnostics.bare (wholeDeclarations wider).2) =
      ((wholeDeclarations source).1.bare, Diagnostics.bare (wholeDeclarations source).2) := by
  rw [wholeDeclarations, wholeDeclarations, Declarations.collect_joined,
    Declarations.collect_joined, h]

theorem wholeRoutines_congr {source wider : Bytes}
    (h : joinedAll false (ParsedSource.read wider .origin).tree.children =
      joinedAll false (ParsedSource.read source .origin).tree.children) :
    ((wholeRoutines wider).1.map Routine.bare, Diagnostics.bare (wholeRoutines wider).2) =
      ((wholeRoutines source).1.map Routine.bare, Diagnostics.bare (wholeRoutines source).2) := by
  have hscope : (wholeDeclarations wider).1.bare = (wholeDeclarations source).1.bare :=
    congrArg Prod.fst (wholeDeclarations_congr h)
  have hread (text : Bytes) := Routine.readItems_core (wholeDeclarations text).1 []
    (ParsedSource.read text .origin).tree
  simp only [List.nil_append, ← @Routine.readItems_joined _ false] at hread
  have hwider := hread wider
  rw [h, hscope, hread source] at hwider
  exact hwider.symm

/-- Line ends inside brackets are layout. A text that is listed without a complaint is listed
without one, and comes to the same units but for places, when line ends are inserted inside
brackets, before and behind any token but an operand of one token; of such an operand, a
literal, a register or a name that is not called, only behind it. -/
theorem ofSource_widened {source wider : Bytes}
    (hwidened : Widened 0 ((Lexed.read source .origin).tokens.map Token.bare)
      ((Lexed.read wider .origin).tokens.map Token.bare))
    (hclean : (ofSource source).diagnostics = []) :
    (ofSource wider).diagnostics = [] ∧
      (ofSource wider).units.map CodeUnit.bare = (ofSource source).units.map CodeUnit.bare := by
  obtain ⟨hparsed, hdeclared, hresolved, hlowered⟩ := (diagnostics_eq_nil_iff source).mp hclean
  rw [Lexed.read, Lexed.read, Lexed.map_bare_tokens, Lexed.map_bare_tokens] at hwidened
  obtain ⟨hparsedWider, hitems⟩ := ParsedSource.read_widened hwidened hparsed
  have hdeclarations := congrArg Prod.snd (wholeDeclarations_congr hitems)
  have hroutines : (wholeRoutines wider).1.map Routine.bare =
      (wholeRoutines source).1.map Routine.bare :=
    congrArg Prod.fst (wholeRoutines_congr hitems)
  have hreported := congrArg Prod.snd (wholeRoutines_congr hitems)
  refine ⟨(diagnostics_eq_nil_iff wider).mpr ⟨hparsedWider, ?_, ?_, ?_⟩, ?_⟩
  · simpa [hdeclared, Diagnostics.bare_eq_nil_iff] using hdeclarations
  · simpa [hresolved, Diagnostics.bare_eq_nil_iff] using hreported
  · rw [← Diagnostics.bare_eq_nil_iff, ← Routine.reports_bare, hroutines, Routine.reports_bare,
      hlowered]
    rfl
  · rw [units_bare, units_bare, hroutines]

/-- A jump table whose lines end behind a key and behind a target. -/
theorem ofSource_widened_jump_table :
    let source := ascii "A:\n    jt $v0, \x7b 1 => A \x7d\n"
    let wider := ascii "A:\n    jt $v0, \x7b 1\n => A \n\x7d\n"
    Widened 0 ((Lexed.read source .origin).tokens.map Token.bare)
        ((Lexed.read wider .origin).tokens.map Token.bare) ∧
      (ofSource source).diagnostics = [] ∧ (ofSource wider).diagnostics = [] ∧
      (ofSource wider).units.map CodeUnit.bare = (ofSource source).units.map CodeUnit.bare := by
  intro source wider
  have hwidened : Widened 0 ((Lexed.read source .origin).tokens.map Token.bare)
      ((Lexed.read wider .origin).tokens.map Token.bare) := by decide +kernel
  have hclean : (ofSource source).diagnostics = [] := by decide +kernel
  exact ⟨hwidened, hclean, ofSource_widened hwidened hclean⟩

/-- A line end right before a literal is read in its place: a jump table does not bear one behind
its brace. -/
theorem not_layout_before_literal :
    let source := ascii "A:\n    jt $v0, \x7b1 => A\x7d\n"
    let wider := ascii "A:\n    jt $v0, \x7b\n1 => A\x7d\n"
    (Lexed.read wider .origin).tokens.map Token.bare =
        ((Lexed.read source .origin).tokens.map Token.bare).insertIdx 10
          ⟨.newline, ascii "\n", .origin⟩ ∧
      (ofSource source).diagnostics = [] ∧ (ofSource wider).diagnostics ≠ [] := by
  intro source wider
  refine ⟨by decide +kernel, by decide +kernel, fun hclean => ?_⟩
  have herrors : (wholeRoutines wider).2.hasErrors = true := by decide +kernel
  rw [((diagnostics_eq_nil_iff wider).mp hclean).2.2.1] at herrors
  cases herrors

end Listing

end NovelAsm
