import NovelAsm.Resolve.Definitions
import NovelAsm.Proofs.SyntaxTree.Parsed

/-!
Names that are declared twice. What has been declared stays declared, and an item that
declares a name is refused when it comes a second time.
-/

namespace NovelAsm

namespace Declarations

/-- What was found is still there later. -/
structure Within (found later : Declarations) : Prop where
  symbols : found.scope.symbols <+: later.scope.symbols
  definitions : found.definitions <+: later.definitions
  diagnostics : found.diagnostics <+: later.diagnostics

namespace Within

variable {found later last : Declarations}

theorem refl (found : Declarations) : found.Within found :=
  ⟨List.prefix_rfl, List.prefix_rfl, List.prefix_rfl⟩

theorem trans (h : found.Within later) (hlater : later.Within last) : found.Within last where
  symbols := h.symbols.trans hlater.symbols
  definitions := h.definitions.trans hlater.definitions
  diagnostics := h.diagnostics.trans hlater.diagnostics

theorem hasErrors (h : found.Within later) (herrors : found.diagnostics.hasErrors = true) :
    later.diagnostics.hasErrors = true := by
  obtain ⟨diagnostic, hmem, herror⟩ := List.any_eq_true.mp herrors
  exact List.any_eq_true.mpr ⟨diagnostic, h.diagnostics.subset hmem, herror⟩

end Within

theorem report_within (diagnostic : Diagnostic) (found : Declarations) :
    found.Within (found.report diagnostic) :=
  ⟨List.prefix_rfl, List.prefix_rfl, List.prefix_append _ _⟩

theorem declare_within (found : Declarations) (symbol : Symbol) :
    found.Within (found.declare symbol) := by
  simp only [declare, Scope.declare]
  cases found.scope.findSymbol? symbol.name with
  | none => exact ⟨List.prefix_append _ _, List.prefix_rfl, List.prefix_rfl⟩
  | some earlier => exact report_within _ _

theorem declareTree_within (found : Declarations) (kind : SymbolKind) (parameterCount : Nat)
    (origin : Location) (tree : SyntaxTree) :
    found.Within (found.declareTree kind parameterCount origin tree) := by
  rw [declareTree]
  cases tree.firstToken? .identifier with
  | none => exact .refl found
  | some name => exact declare_within _ _

theorem foldl_within {α : Type} {step : Declarations → α → Declarations}
    (h : ∀ (found : Declarations) (item : α), found.Within (step found item)) (items : List α)
    (found : Declarations) :
    found.Within (items.foldl step found) := by
  induction items generalizing found with
  | nil => exact .refl found
  | cons item rest ih => exact (h found item).trans (ih _)

theorem declareLabels_within (found : Declarations) (origin : Location) (body : SyntaxTree) :
    found.Within (found.declareLabels origin body) :=
  foldl_within (fun found label => declareTree_within found .label 0 origin label) _ found

theorem recordDefinition_within (found : Declarations) (origin : Location) (tree : SyntaxTree) :
    found.Within (found.recordDefinition origin tree) := by
  rw [recordDefinition]
  split
  · split
    · exact .refl found
    · simp only
      split
      · exact report_within _ _
      · split
        · exact report_within _ _
        · exact ⟨List.prefix_rfl, List.prefix_append _ _, List.prefix_rfl⟩
  · exact .refl found

theorem addItem_within (found : Declarations) (origin : Location) (tree : SyntaxTree) :
    found.Within (found.addItem origin tree) := by
  rw [addItem]
  split
  · exact declareTree_within ..
  · exact (declareTree_within ..).trans (declareLabels_within ..)
  · exact (declareTree_within ..).trans (declareLabels_within ..)
  · exact recordDefinition_within ..
  · exact .refl found

/-- Whether a name is taken for an item of a kind. -/
def Taken (found : Declarations) (tree : SyntaxTree) (name : Bytes) : Prop :=
  if tree.kind? = some .definition then (found.definitions.find? (·.name == name)).isSome
  else (found.scope.findSymbol? name).isSome

theorem Within.taken {found later : Declarations} (h : found.Within later) {tree : SyntaxTree}
    {name : Bytes} (htaken : found.Taken tree name) : later.Taken tree name := by
  obtain ⟨⟨symbols, hsymbols⟩, ⟨definitions, hdefinitions⟩, -⟩ := h
  unfold Taken at htaken ⊢
  split
  · rename_i hkind
    rw [if_pos hkind] at htaken
    simp [← hdefinitions, List.find?_append, htaken]
  · rename_i hkind
    rw [if_neg hkind] at htaken
    rw [Scope.findSymbol?] at htaken ⊢
    simp [← hsymbols, List.find?_append, htaken]

theorem declare_taken (found : Declarations) (symbol : Symbol) :
    ((found.declare symbol).scope.findSymbol? symbol.name).isSome := by
  simp only [declare, Scope.declare]
  cases hfind : found.scope.findSymbol? symbol.name with
  | some earlier => simp [report, hfind]
  | none =>
      rw [Scope.findSymbol?] at hfind
      simp [Scope.findSymbol?, List.find?_append, hfind]

theorem declare_twice {found : Declarations} {symbol : Symbol}
    (h : (found.scope.findSymbol? symbol.name).isSome) :
    (found.declare symbol).diagnostics.hasErrors = true := by
  obtain ⟨earlier, hearlier⟩ := Option.isSome_iff_exists.mp h
  simp only [declare, Scope.declare, hearlier]
  exact List.any_eq_true.mpr ⟨_, List.mem_append_right _ (List.mem_singleton_self _), rfl⟩

theorem isSignificant_of_kind {token : Token} (h : token.kind.isTrivia = false)
    (hend : token.kind ≠ .endOfFile) : token.isSignificant = true := by
  simp [Token.isSignificant, Token.isTrivia, h, hend]

/-- The name of an item that declares a symbol is its first identifier. -/
theorem firstToken?_of_names {tree : SyntaxTree} {name : Token} (h : tree.NamedBy name)
    (hkind : tree.kind? ≠ some .definition) : tree.firstToken? .identifier = some name := by
  have hidentifier {name : Token} (hname : name.kind = .identifier) : name.isSignificant = true :=
    isSignificant_of_kind (by rw [hname]; rfl) (by simp [hname])
  cases h with
  | label hname =>
      simp [SyntaxTree.firstToken?, SyntaxTree.tokens, SyntaxTree.children,
        hidentifier hname, hname]
  | function hword hname | subroutine hword hname =>
      simp only [SyntaxTree.firstToken?, SyntaxTree.tokens, SyntaxTree.children,
        List.filterMap_cons, hidentifier hname]
      split <;> simp_all
  | definition => exact absurd rfl hkind

/-- An item other than a definition declares a symbol of its name, and maybe others. -/
theorem addItem_symbol {tree : SyntaxTree} {name : Token} (h : tree.NamedBy name)
    (hkind : tree.kind? ≠ some .definition) (found : Declarations) (origin : Location) :
    ∃ symbol : Symbol, symbol.name = name.text ∧
      (found.declare symbol).Within (found.addItem origin tree) := by
  have hdeclare (kind : SymbolKind) (count : Nat) : ∃ symbol : Symbol, symbol.name = name.text ∧
      found.declareTree kind count origin tree = found.declare symbol := by
    rw [declareTree, firstToken?_of_names h hkind]
    exact ⟨⟨name.text, kind, count, name.span.rebase origin⟩, rfl, rfl⟩
  cases h with
  | label =>
      obtain ⟨symbol, hname, hfound⟩ := hdeclare .label 0
      exact ⟨symbol, hname, hfound ▸ .refl _⟩
  | function =>
      obtain ⟨symbol, hname, hfound⟩ := hdeclare .function (parameterCount _)
      exact ⟨symbol, hname, hfound ▸ declareLabels_within _ _ _⟩
  | subroutine =>
      obtain ⟨symbol, hname, hfound⟩ := hdeclare .subroutine 0
      exact ⟨symbol, hname, hfound ▸ declareLabels_within _ _ _⟩
  | definition => exact absurd rfl hkind

/-- What the definition of a name adds, if it is not refused. -/
theorem recordDefinition_of_names {tree : SyntaxTree} {name : Token} (h : tree.NamedBy name)
    (hkind : tree.kind? = some .definition) (found : Declarations) (origin : Location) :
    (found.recordDefinition origin tree).diagnostics.hasErrors = true ∨
      found.definitions.find? (·.name == name.text) = none ∧
        ((found.recordDefinition origin tree).definitions.find? (·.name == name.text)).isSome := by
  have herror (diagnostic : Diagnostic) (hdiagnostic : diagnostic.isError = true) :
      (found.report diagnostic).diagnostics.hasErrors = true :=
    List.any_eq_true.mpr ⟨_, List.mem_append_right _ (List.mem_singleton_self _), hdiagnostic⟩
  cases h with
  | label | function | subroutine => cases hkind
  | @definition word name more hword hname =>
      have htokens : ∃ others, (SyntaxTree.node .definition
          (.token word :: .token name :: more)).tokens = word :: name :: others := by
        have hwordSignificant : word.isSignificant = true :=
          isSignificant_of_kind (by rw [hword]; rfl) (by simp [hword])
        have hnameSignificant : name.isSignificant = true := by
          rcases hname with hname | hname <;>
            exact isSignificant_of_kind (by rw [hname]; rfl) (by simp [hname])
        simp only [SyntaxTree.tokens, SyntaxTree.children, List.filterMap_cons,
          hwordSignificant, hnameSignificant, if_true]
        exact ⟨_, rfl⟩
      obtain ⟨others, htokens⟩ := htokens
      have hnamed : (name.kind != .identifier && name.kind != .register) = false := by
        rcases hname with hname | hname <;> simp [hname]
      simp only [recordDefinition, htokens, hnamed, Bool.false_eq_true, if_false]
      split
      · exact Or.inl (herror _ rfl)
      · cases hfind : found.definitions.find? (·.name == name.text) with
        | some earlier => exact Or.inl (herror _ rfl)
        | none => exact Or.inr ⟨rfl, by simp [List.find?_append, hfind]⟩

theorem addItem_definition {tree : SyntaxTree} (hkind : tree.kind? = some .definition)
    (found : Declarations) (origin : Location) :
    found.addItem origin tree = found.recordDefinition origin tree := by
  rw [addItem, hkind]

/-- An item that declares a name takes it, or is refused. -/
theorem addItem_taken {tree : SyntaxTree} {name : Token} (h : tree.NamedBy name)
    (found : Declarations) (origin : Location) :
    (found.addItem origin tree).diagnostics.hasErrors = true ∨
      (found.addItem origin tree).Taken tree name.text := by
  by_cases hkind : tree.kind? = some .definition
  · rw [addItem_definition hkind, Taken, if_pos hkind]
    exact (recordDefinition_of_names h hkind found origin).imp_right And.right
  · obtain ⟨symbol, hname, hwithin⟩ := addItem_symbol h hkind found origin
    refine Or.inr (hwithin.taken ?_)
    rw [Taken, if_neg hkind, ← hname]
    exact declare_taken found symbol

/-- An item whose name is taken is refused. -/
theorem addItem_twice {tree : SyntaxTree} {name : Token} (h : tree.NamedBy name)
    {found : Declarations} (htaken : found.Taken tree name.text) (origin : Location) :
    (found.addItem origin tree).diagnostics.hasErrors = true := by
  rw [Taken] at htaken
  by_cases hkind : tree.kind? = some .definition
  · rw [if_pos hkind] at htaken
    rw [addItem_definition hkind]
    refine (recordDefinition_of_names h hkind found origin).resolve_right fun hnone => ?_
    simp [hnone.1] at htaken
  · rw [if_neg hkind] at htaken
    obtain ⟨symbol, hname, hwithin⟩ := addItem_symbol h hkind found origin
    exact hwithin.hasErrors (declare_twice (hname ▸ htaken))

theorem foldl_addItem_within (items : List SyntaxTree) (origin : Location) (found : Declarations) :
    found.Within (items.foldl (fun found item => found.addItem origin item) found) :=
  foldl_within (fun found item => addItem_within found origin item) items found

/-- No item that declares a name comes twice without an error. -/
theorem foldl_addItem_twice {tree : SyntaxTree} {name : Token} (h : tree.NamedBy name)
    {items : List SyntaxTree} (htwice : List.Sublist [tree, tree] items) (origin : Location)
    (found : Declarations) :
    (items.foldl (fun found item => found.addItem origin item) found).diagnostics.hasErrors =
      true := by
  have hsecond (items : List SyntaxTree) (hmem : tree ∈ items) (found : Declarations)
      (htaken : found.Taken tree name.text) :
      (items.foldl (fun found item => found.addItem origin item) found).diagnostics.hasErrors =
        true := by
    obtain ⟨front, behind, rfl⟩ := List.append_of_mem hmem
    rw [List.foldl_append, List.foldl_cons]
    exact (foldl_addItem_within behind origin _).hasErrors
      (addItem_twice h ((foldl_addItem_within front origin found).taken htaken) origin)
  obtain ⟨front, behind, rfl, hfront, hbehind⟩ := List.cons_sublist_iff.mp htwice
  obtain ⟨before, after, rfl⟩ := List.append_of_mem hfront
  rw [List.foldl_append, List.foldl_append, List.foldl_cons]
  have hafter := foldl_addItem_within after origin
    ((before.foldl (fun found item => found.addItem origin item) found).addItem origin tree)
  rcases addItem_taken h (before.foldl (fun found item => found.addItem origin item) found) origin
    with herrors | htaken
  · exact (foldl_addItem_within behind origin _).hasErrors (hafter.hasErrors herrors)
  · exact hsecond behind (List.singleton_sublist.mp hbehind) _ (hafter.taken htaken)

theorem reportClashes_within (found : Declarations) : found.Within found.reportClashes := by
  refine foldl_within (fun state definition => ?_) found.definitions found
  split
  · split
    · exact .refl state
    · exact report_within _ _
  · exact .refl state

/-- An error among the declarations is an error of the file. -/
theorem hasErrors_defineAll {found : Declarations} (h : found.diagnostics.hasErrors = true) :
    found.reportClashes.defineAll.2.hasErrors = true := by
  have hclashes := found.reportClashes_within.hasErrors h
  obtain ⟨diagnostic, hmem, herror⟩ := List.any_eq_true.mp hclashes
  exact List.any_eq_true.mpr ⟨diagnostic, List.mem_append_left _ hmem, herror⟩

end Declarations

end NovelAsm
