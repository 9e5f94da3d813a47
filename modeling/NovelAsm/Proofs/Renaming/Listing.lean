import NovelAsm.Proofs.Layout.Listing
import NovelAsm.Proofs.Renaming.Code
import NovelAsm.Proofs.Renaming.Parsing
import NovelAsm.Proofs.Renaming.Routines

/-!
Other names in a source. If nothing is said of a source, then nothing is said of the text of its
tree with other names, and it is listed as the same units with these names
(`Listing.Renames.listed`).

What is resolved under other names is compared with the tree that has them; the text of that tree is
read into the same tree but for places, and places make no difference to the units.
-/

namespace NovelAsm

open Location (origin)

namespace Listing

open Session

/-- Other names for the items of a source: for symbols, and in functions for parameters. Of all
names that are given, one is new. -/
structure Renames (source : Bytes) (names : SyntaxTree → Names) (symbol : Bytes → Bytes)
    (new : Bytes) : Prop where
  injective : Function.Injective symbol
  empty : symbol [] = []
  flag : Flag.ofText? new = none
  give : ∀ item ∈ (ParsedSource.read source origin).tree.children, (names item).Give new item
  suit : ∀ item ∈ (ParsedSource.read source origin).tree.children, (names item).Suit symbol item
  refreshes : ∀ item ∈ (ParsedSource.read source origin).tree.children,
    Routine.Refreshes (names item) item
  moved : ∀ leaf ∈ (ParsedSource.read source origin).tree.leaves, symbol leaf.text ≠ leaf.text →
    ((wholeDeclarations source).1.findSymbol? leaf.text).isSome = true

variable {source : Bytes} {names : SyntaxTree → Names} {symbol : Bytes → Bytes} {new : Bytes}

/-- A source without a complaint: with other names, nothing is declared that would be reported, and
its routines are those with these names. -/
theorem Renames.resolve (h : Renames source names symbol new)
    (hparsed : (ParsedSource.read source origin).diagnostics = [])
    (hdeclared : (wholeDeclarations source).2 = []) (hresolved : (wholeRoutines source).2 = []) :
    let tree := (ParsedSource.read source origin).tree.renameItems names
    (Declarations.collect [⟨tree, origin⟩]).2 = [] ∧
      ∃ routines, Routine.resolve (Declarations.collect [⟨tree, origin⟩]).1 tree = (routines, []) ∧
        List.Forall₂ (Routine.RenamedTo symbol) (wholeRoutines source).1 routines := by
  intro tree
  have hclean : PlacedTree.Clean ⟨(ParsedSource.read source origin).tree, origin⟩ :=
    ⟨source, origin, by rw [hparsed, Diagnostics.hasErrors_nil], rfl⟩
  obtain ⟨hcollect, hvalue⟩ :=
    Declarations.collect_renamed hclean h.injective h.suit h.moved hdeclared
  have hrun := Routine.readItems_accompanies h.empty
    (Scope.renamed_rename h.injective hvalue) h.suit
    h.refreshes (ParsedSource.read_children_formed hparsed)
      (ParsedSource.read_linesBegin source origin) none []
  obtain ⟨hroutines, hquiet⟩ := hrun.2 (congrArg List.length hresolved)
  rw [hcollect]
  exact ⟨rfl, _, Prod.ext rfl (hquiet.trans hresolved), hroutines⟩

/-- Routines without a complaint under other names are lowered to their code under these. -/
theorem map_lower_renamed {routines twins : List Routine}
    (h : List.Forall₂ (Routine.RenamedTo symbol) routines twins)
    (hquiet : Routine.reports routines = []) :
    twins.map Routine.lower = routines.map fun routine => (routine.lower.1.rename symbol, []) := by
  rw [Routine.reports, List.flatMap_eq_nil_iff] at hquiet
  induction h with
  | nil => rfl
  | cons hfirst _ ih =>
      obtain ⟨hroutine, hquiet⟩ := List.forall_mem_cons.mp hquiet
      obtain ⟨names, rfl, rfl⟩ := hfirst
      rw [List.map_cons, List.map_cons, Routine.lower_rename hroutine, ih hquiet]

section Core

variable {text : Bytes} {tree : SyntaxTree}
  (hcore : SyntaxTree.coreAll (ParsedSource.read text origin).tree.children =
    SyntaxTree.coreAll tree.children)

include hcore

/-- A text that is read as a tree, but for places, declares what the tree does. -/
theorem wholeDeclarations_of_core :
    ((wholeDeclarations text).1.bare, Diagnostics.bare (wholeDeclarations text).2) =
      ((Declarations.collect [⟨tree, origin⟩]).1.bare,
        Diagnostics.bare (Declarations.collect [⟨tree, origin⟩]).2) := by
  rw [wholeDeclarations, Declarations.collect_bare, Declarations.collect_bare,
    List.flatMap_singleton, List.flatMap_singleton, hcore]

/-- A text that is read as a tree, but for places, has the routines of the tree. -/
theorem wholeRoutines_of_core :
    ((wholeRoutines text).1.map Routine.bare, Diagnostics.bare (wholeRoutines text).2) =
      ((Routine.resolve (Declarations.collect [⟨tree, origin⟩]).1 tree).1.map Routine.bare,
        Diagnostics.bare (Routine.resolve (Declarations.collect [⟨tree, origin⟩]).1 tree).2) := by
  have hscope : (wholeDeclarations text).1.bare = _ :=
    congrArg Prod.fst (wholeDeclarations_of_core hcore)
  have hresolve := Routine.readItems_core (wholeDeclarations text).1 []
    (ParsedSource.read text origin).tree
  rw [hcore, hscope, Routine.readItems_core] at hresolve
  exact hresolve.symm

end Core

/-- The text of a tree with other names is listed without a complaint, and comes to the units with
these names, but for places. -/
theorem Renames.listed (h : Renames source names symbol new)
    (hclean : (ofSource source).diagnostics = []) :
    let twin := ofSource ((ParsedSource.read source origin).tree.renameItems names).text
    twin.diagnostics = [] ∧ twin.units.map CodeUnit.bare =
      ((ofSource source).units.map (CodeUnit.rename symbol)).map CodeUnit.bare := by
  obtain ⟨hparsed, hdeclared, hresolved, hlowered⟩ := (diagnostics_eq_nil_iff source).mp hclean
  obtain ⟨hread, hcore⟩ := ParsedSource.read_renamed hparsed h.flag h.give
  obtain ⟨hcollected, routines, hroutines, hrenamed⟩ := h.resolve hparsed hdeclared hresolved
  generalize (ParsedSource.read source origin).tree.renameItems names = tree at *
  have hlower := map_lower_renamed hrenamed hlowered
  have hquiet : Routine.reports routines = [] := by
    rw [Routine.reports, ← List.flatMap_map, hlower, List.flatMap_map]
    exact List.flatMap_eq_nil_iff.mpr fun _ _ => rfl
  have hdeclarations := congrArg Prod.snd (wholeDeclarations_of_core hcore)
  have hresolve := wholeRoutines_of_core hcore
  rw [hroutines] at hresolve
  obtain ⟨hbare, hreported⟩ := Prod.mk.inj hresolve
  refine ⟨(diagnostics_eq_nil_iff tree.text).mpr ⟨hread, ?_, ?_, ?_⟩, ?_⟩
  · simpa [hcollected, Diagnostics.bare_eq_nil_iff] using hdeclarations
  · exact Diagnostics.bare_eq_nil_iff.mp hreported
  · rw [← Diagnostics.bare_eq_nil_iff, ← Routine.reports_bare, hbare, Routine.reports_bare, hquiet]
    rfl
  · have hunits : (ofSource source).units = (wholeRoutines source).1.map fun routine =>
        routine.lower.1 := by
      change ((wholeRoutines source).1.map Routine.lower).map Prod.fst = _
      rw [List.map_map]
      rfl
    rw [units_bare, hbare, List.map_map, hunits]
    simp only [Function.comp_def, Routine.lower_bare]
    have hbared := congrArg (List.map fun lowered => lowered.1.bare) hlower
    simpa only [List.map_map, Function.comp_def] using hbared

end Listing

end NovelAsm
