import NovelAsm.Proofs.NameMap
import NovelAsm.Proofs.Resolve.Declared
import NovelAsm.Proofs.Resolve.Visible
import NovelAsm.Proofs.Token.Places
import NovelAsm.Proofs.Token.Spelled

/-!
The names of a scope. They are spelled in the trees that it was collected from
(`Declarations.collect_named`), so they are made as the lexer cuts them
(`ParsedSource.spelt_of_mem`).
-/

namespace NovelAsm

/-- The tokens of a text: a line end holds a line feed, and names are made of their letters. -/
theorem ParsedSource.spelt_of_mem {source : Bytes} {place : Location} {token : Token}
    (h : token ∈ (read source place).tree.leaves) : Lexeme.Spelt token.kind token.text := by
  rw [leaves_read, Lexed.all] at h
  rcases List.mem_append.mp h with h | h
  · exact Lexed.spelt_of_mem h
  · apply Lexeme.spelt_of_other
    rw [List.mem_singleton.mp h, Lexed.finish_kind]
    rfl

namespace Declarations

/-- All that was declared so far has names of a kind. -/
structure Named (P : Bytes → Prop) (found : Declarations) : Prop where
  symbols : ∀ symbol ∈ found.scope.symbols, P symbol.name
  values : ∀ entry ∈ found.scope.values.entries, P entry.1
  registers : ∀ entry ∈ found.scope.registers.entries, P entry.1
  definitions : ∀ definition ∈ found.definitions, P definition.name

variable {P : Bytes → Prop} {found : Declarations}

/-- The identifiers and registers of a tree are names of a kind. -/
def Spelled (P : Bytes → Prop) (tree : SyntaxTree) : Prop :=
  ∀ leaf ∈ tree.leaves, leaf.kind = .identifier ∨ leaf.kind = .register → P leaf.text

theorem Named.declare (h : found.Named P) {symbol : Symbol} (hname : P symbol.name) :
    (found.declare symbol).Named P := by
  simp only [Declarations.declare, Scope.declare]
  cases found.scope.findSymbol? symbol.name with
  | some earlier => exact ⟨h.symbols, h.values, h.registers, h.definitions⟩
  | none =>
      refine ⟨?_, h.values, h.registers, h.definitions⟩
      exact List.forall_mem_append.mpr ⟨h.symbols, List.forall_mem_singleton.mpr hname⟩

theorem Named.declareTree (h : found.Named P) {tree : SyntaxTree} (htree : Spelled P tree)
    (kind : SymbolKind) (count : Nat) (origin : Location) :
    (found.declareTree kind count origin tree).Named P := by
  simp only [Declarations.declareTree]
  cases hfirst : tree.firstToken? .identifier with
  | none => exact h
  | some token =>
      apply h.declare
      have hkind := List.find?_some hfirst
      rw [beq_iff_eq] at hkind
      exact htree token (SyntaxTree.mem_leaves_of_mem_tokens (List.mem_of_find?_eq_some hfirst))
        (.inl hkind)

theorem Named.declareLabels (h : found.Named P) {body : SyntaxTree} (hbody : Spelled P body)
    (origin : Location) : (found.declareLabels origin body).Named P := by
  apply List.foldlRecOn (motive := fun found : Declarations => found.Named P) _ _ h
  intro found hfound label hlabel
  apply hfound.declareTree
  intro leaf hleaf
  exact hbody leaf (SyntaxTree.mem_leaves_of_mem_children (List.mem_filter.mp hlabel).1 hleaf)

theorem Named.recordDefinition (h : found.Named P) {tree : SyntaxTree} (htree : Spelled P tree)
    (origin : Location) : (found.recordDefinition origin tree).Named P := by
  simp only [Declarations.recordDefinition]
  split
  · rename_i word name more htokens
    have hmem : name ∈ tree.tokens := by
      rw [htokens]
      exact List.mem_cons_of_mem _ (List.mem_cons_self ..)
    split
    · exact h
    · rename_i hkind
      split
      · exact ⟨h.symbols, h.values, h.registers, h.definitions⟩
      · split
        · exact ⟨h.symbols, h.values, h.registers, h.definitions⟩
        · refine ⟨h.symbols, h.values, h.registers, ?_⟩
          refine List.forall_mem_append.mpr ⟨h.definitions, List.forall_mem_singleton.mpr ?_⟩
          apply htree name (SyntaxTree.mem_leaves_of_mem_tokens hmem)
          by_contra hother
          rw [not_or] at hother
          exact hkind (by simp [hother.1, hother.2])
  · exact h

theorem Named.addItem (h : found.Named P) {tree : SyntaxTree} (htree : Spelled P tree)
    (origin : Location) : (found.addItem origin tree).Named P := by
  simp only [Declarations.addItem]
  split
  · exact h.declareTree htree _ _ _
  · exact (h.declareTree htree _ _ _).declareLabels htree _
  · exact (h.declareTree htree _ _ _).declareLabels htree _
  · exact h.recordDefinition htree _
  · exact h

theorem Named.addTree (h : found.Named P) {placed : PlacedTree} (htree : Spelled P placed.tree) :
    (found.addTree placed).Named P := by
  apply List.foldlRecOn (motive := fun found : Declarations => found.Named P) _ _ h
  intro found hfound item hitem
  apply hfound.addItem
  intro leaf hleaf
  exact htree leaf (SyntaxTree.mem_leaves_of_mem_children hitem hleaf)

theorem Named.reportClashes (h : found.Named P) : found.reportClashes.Named P := by
  apply List.foldlRecOn (motive := fun found : Declarations => found.Named P) _ _ h
  intro state hstate definition _
  split
  · split
    · exact hstate
    · exact ⟨hstate.symbols, hstate.values, hstate.registers, hstate.definitions⟩
  · exact hstate

/-- Definitions are entered under their names. -/
theorem Named.define {scope : Scope} (h : Named P { found with scope := scope })
    {definition : Definition} (hdefinition : P definition.name) :
    Ensures (found.define scope definition) fun after => Named P { found with scope := after } := by
  simp only [Declarations.define]
  split
  · refine Ensures.behind fun register => ?_
    cases register with
    | none => exact Ensures.pure h
    | some register =>
        exact Ensures.pure ⟨h.symbols, h.values,
          NameMap.forall_mem_insertNew h.registers hdefinition register, h.definitions⟩
  · refine Ensures.behind fun value => ?_
    cases value with
    | none => exact Ensures.pure h
    | some value =>
        exact Ensures.pure ⟨h.symbols, NameMap.forall_mem_insertNew h.values hdefinition value,
          h.registers, h.definitions⟩

theorem Named.defineAll (h : found.Named P) :
    Named P { found with scope := found.defineAll.1 } := by
  have hfold (definitions : List Definition)
      (hnames : ∀ definition ∈ definitions, P definition.name)
      (scope : Scope) (hscope : Named P { found with scope := scope }) :
      Ensures (definitions.foldlM found.define scope) fun after =>
        Named P { found with scope := after } := by
    induction definitions generalizing scope with
    | nil => exact Ensures.pure hscope
    | cons first rest ih =>
        obtain ⟨hfirst, hrest⟩ := List.forall_mem_cons.mp hnames
        rw [List.foldlM_cons]
        exact (hscope.define hfirst).bind fun after hafter => ih hrest after hafter
  exact hfold found.definitions h.definitions found.scope h .empty

/-- The names of a scope are spelled in the trees that it was collected from. -/
theorem collect_named {trees : List PlacedTree}
    (htrees : ∀ placed ∈ trees, Spelled P placed.tree) :
    ∃ definitions diagnostics, Named P ⟨(collect trees).1, definitions, diagnostics⟩ := by
  have hempty : Named P .empty :=
    ⟨List.forall_mem_nil _, List.forall_mem_nil _, List.forall_mem_nil _, List.forall_mem_nil _⟩
  have hadded : (trees.foldl addTree .empty).Named P := by
    apply List.foldlRecOn (motive := fun found : Declarations => found.Named P) _ _ hempty
    intro found hfound placed hplaced
    exact hfound.addTree (htrees placed hplaced)
  exact ⟨_, _, hadded.reportClashes.defineAll⟩

theorem exists_identifier_of_introduced? {kind : SymbolKind} {count : Nat} {origin : Location}
    {tree : SyntaxTree} {symbol : Symbol} (h : introduced? kind count origin tree = some symbol) :
    ∃ leaf ∈ tree.leaves, leaf.kind = .identifier ∧ leaf.text = symbol.name := by
  obtain ⟨token, htoken, rfl⟩ := Option.map_eq_some_iff.mp h
  have hkind := List.find?_some htoken
  rw [beq_iff_eq] at hkind
  exact ⟨token, SyntaxTree.mem_leaves_of_mem_tokens (List.mem_of_find?_eq_some htoken), hkind, rfl⟩

theorem exists_identifier_of_mem_symbolsOf {origin : Location} {tree : SyntaxTree} {symbol : Symbol}
    (h : symbol ∈ symbolsOf origin tree) :
    ∃ leaf ∈ tree.leaves, leaf.kind = .identifier ∧ leaf.text = symbol.name := by
  have hlabels (h : symbol ∈ (labelsIn tree).filterMap (introduced? .label 0 origin)) :
      ∃ leaf ∈ tree.leaves, leaf.kind = .identifier ∧ leaf.text = symbol.name := by
    obtain ⟨label, hlabel, hintroduced⟩ := List.mem_filterMap.mp h
    obtain ⟨leaf, hleaf, hnamed⟩ := exists_identifier_of_introduced? hintroduced
    exact ⟨leaf, SyntaxTree.mem_leaves_of_mem_children (List.mem_filter.mp hlabel).1 hleaf, hnamed⟩
  rw [symbolsOf] at h
  split at h
  · exact exists_identifier_of_introduced? (Option.mem_toList.mp h)
  · rcases List.mem_append.mp h with h | h
    · exact exists_identifier_of_introduced? (Option.mem_toList.mp h)
    · exact hlabels h
  · rcases List.mem_append.mp h with h | h
    · exact exists_identifier_of_introduced? (Option.mem_toList.mp h)
    · exact hlabels h
  · cases h

/-- The name of a symbol of a scope is an identifier in one of its trees. -/
theorem exists_identifier {trees : List PlacedTree} {name : Bytes}
    (h : ((collect trees).1.findSymbol? name).isSome = true) :
    ∃ placed ∈ trees, ∃ leaf ∈ placed.tree.leaves, leaf.kind = .identifier ∧ leaf.text = name := by
  rw [findSymbol?_collect, List.find?_isSome] at h
  obtain ⟨symbol, hsymbol, hname⟩ := h
  obtain ⟨placed, hplaced, hsymbol⟩ := List.mem_flatMap.mp hsymbol
  obtain ⟨item, hitem, hsymbol⟩ := List.mem_flatMap.mp hsymbol
  obtain ⟨leaf, hleaf, hkind, htext⟩ := exists_identifier_of_mem_symbolsOf hsymbol
  exact ⟨placed, hplaced, leaf, SyntaxTree.mem_leaves_of_mem_children hitem hleaf, hkind,
    htext.trans (beq_iff_eq.mp hname)⟩

end Declarations

namespace Routine

open Declarations (Spelled)

variable {P : Bytes → Prop} {tree : SyntaxTree}

theorem nameOf_spelled (hempty : P []) (h : Spelled P tree) : P (nameOf tree) := by
  rw [nameOf]
  cases hfirst : tree.firstToken? .identifier with
  | none => exact hempty
  | some token =>
      have hkind := List.find?_some hfirst
      rw [beq_iff_eq] at hkind
      exact h token (SyntaxTree.mem_leaves_of_mem_tokens (List.mem_of_find?_eq_some hfirst))
        (.inl hkind)

theorem labelsOf_spelled (hempty : P []) (h : Spelled P tree) :
    ∀ label ∈ labelsOf tree, P label.1 := by
  have hinside : ∀ label ∈ (Declarations.labelsIn tree).map fun label =>
      (nameOf label, SymbolKind.label, 0), P label.1 := by
    refine List.forall_mem_map.mpr fun label hlabel => nameOf_spelled hempty fun leaf hleaf => ?_
    exact h leaf (SyntaxTree.mem_leaves_of_mem_children (List.mem_filter.mp hlabel).1 hleaf)
  simp only [labelsOf]
  split
  · exact List.forall_mem_singleton.mpr (nameOf_spelled hempty h)
  · exact List.forall_mem_cons.mpr ⟨nameOf_spelled hempty h, hinside⟩
  · exact List.forall_mem_cons.mpr ⟨nameOf_spelled hempty h, hinside⟩
  · exact List.forall_mem_nil _

/-- The labels of the routines of a tree are spelled in the tree, or empty. -/
theorem resolve_labels_spelled {scope : Scope} (hempty : P []) (h : Spelled P tree)
    {routine : Routine} (hroutine : routine ∈ (resolve scope tree).1) :
    ∀ label ∈ routine.labels, P label.1 := by
  intro label hlabel
  have hmem : label ∈ (resolve scope tree).1.flatMap labels :=
    List.mem_flatMap.mpr ⟨routine, hroutine, hlabel⟩
  rw [resolve_labels] at hmem
  obtain ⟨item, hitem, hmem⟩ := List.mem_flatMap.mp hmem
  exact labelsOf_spelled hempty (fun leaf hleaf =>
    h leaf (SyntaxTree.mem_leaves_of_mem_children hitem hleaf)) label hmem

end Routine

end NovelAsm
