import NovelAsm.Proofs.Renaming.Definitions
import NovelAsm.Proofs.Resolve.Duplicates
import NovelAsm.Proofs.Resolve.LeastSolution
import NovelAsm.Proofs.Resolve.Named

/-!
Declarations with other names for symbols. A file with other names declares the same symbols under
these names, and defines the same values and registers (`Declarations.collect_renamed`).
-/

namespace NovelAsm

/-- Names for an item: other ones for symbols, and for registers at most in a function. -/
structure Names.Suit (names : Names) (symbol : Bytes → Bytes) (item : SyntaxTree) : Prop where
  symbol : names.symbol = symbol
  register : item.kind? ≠ some .functionDefinition → names.register = id

theorem Names.Suit.eq {names : Names} {symbol : Bytes → Bytes} {item : SyntaxTree}
    (h : names.Suit symbol item) (hkind : item.kind? ≠ some .functionDefinition) :
    names = .ofSymbol symbol := by
  cases names
  exact congrArg₂ Names.mk h.symbol (h.register hkind)

namespace Declarations

open Definition (ofItem?)

variable {symbol : Bytes → Bytes} {found other : Declarations}

/-- What was found in a file with other names for symbols. -/
structure Renamed (symbol : Bytes → Bytes) (found other : Declarations) : Prop where
  scope : other.scope = found.scope.rename (.ofSymbol symbol)
  definitions : other.definitions = found.definitions.map (Definition.rename symbol)
  diagnostics : other.diagnostics.length = found.diagnostics.length

theorem Renamed.report (h : Renamed symbol found other) (diagnostic twin : Diagnostic) :
    Renamed symbol (found.report diagnostic) (other.report twin) :=
  ⟨h.scope, h.definitions, by simp [Declarations.report, h.diagnostics]⟩

/-! ## Definitions -/

theorem Renamed.recordDefinition (h : Renamed symbol found other) {names : Names}
    (hnames : names = .ofSymbol symbol) (origin : Location) (children : List SyntaxTree) :
    Renamed symbol (found.recordDefinition origin (.node .definition children))
      (other.recordDefinition origin
        (.node .definition (SyntaxTree.recastAll names.token .definition children))) := by
  subst hnames
  have hword : (Names.ofSymbol symbol).token .definition = id :=
    funext (Names.token_of_isNameless _ rfl)
  have hvalue : (SyntaxTree.node .definition (SyntaxTree.recastAll (Names.ofSymbol symbol).token
      .definition children)).childNodes.head? = (SyntaxTree.node .definition
        children).childNodes.head?.map
          (SyntaxTree.recast (Names.ofSymbol symbol).token .definition) := by
    rw [SyntaxTree.childNodes_recast, SyntaxTree.recastAll_eq_map, List.head?_map]
  simp only [Declarations.recordDefinition, SyntaxTree.tokens_recast, hword, List.map_id, hvalue]
  split
  · rename_i word name more htokens
    have hearlier : other.definitions.find? (·.name == name.text) =
        (found.definitions.find? (·.name == name.text)).map (Definition.rename symbol) := by
      rw [h.definitions, List.find?_map]
      rfl
    split
    · exact h
    · split
      · exact h.report _ _
      · rw [hearlier]
        cases found.definitions.find? (·.name == name.text) with
        | some earlier => exact h.report _ _
        | none => exact ⟨h.scope, by simp [h.definitions, Definition.rename], h.diagnostics⟩
  · exact h

/-- A definition that was found is one of those that are written. -/
theorem mem_recordDefinition {origin : Location} {tree : SyntaxTree}
    (hkind : tree.kind? = some .definition) {definition : Definition}
    (hmem : definition ∈ (found.recordDefinition origin tree).definitions) :
    definition ∈ found.definitions ∨ ofItem? origin tree = some definition := by
  simp only [recordDefinition] at hmem
  simp only [ofItem?, hkind]
  split at hmem
  · rename_i htokens
    simp only [htokens]
    split at hmem
    · exact .inl hmem
    · rename_i hnamed
      split at hmem
      · exact .inl hmem
      · split at hmem
        · exact .inl hmem
        · refine (List.mem_append.mp hmem).imp_right fun hlast => ?_
          rw [if_neg hnamed, List.mem_singleton.mp hlast]
  · exact .inl hmem

theorem mem_addItem {origin : Location} {tree : SyntaxTree} {definition : Definition}
    (hmem : definition ∈ (found.addItem origin tree).definitions) :
    definition ∈ found.definitions ∨ ofItem? origin tree = some definition := by
  have hdeclare (found : Declarations) (kind : SymbolKind) (count : Nat) :
      (found.declareTree kind count origin tree).definitions = found.definitions :=
    (declareTree_records found kind count origin tree).definitions.trans (List.append_nil _)
  have hlabels (found : Declarations) :
      (found.declareLabels origin tree).definitions = found.definitions :=
    (declareLabels_records found origin tree).definitions.trans (List.append_nil _)
  rw [addItem] at hmem
  split at hmem
  · exact .inl (hdeclare .. ▸ hmem)
  · exact .inl (hdeclare .. ▸ hlabels _ ▸ hmem)
  · exact .inl (hdeclare .. ▸ hlabels _ ▸ hmem)
  · exact mem_recordDefinition ‹_› hmem
  · exact .inl hmem

/-- The definitions that were found in a file are written there. -/
theorem mem_written {trees : List PlacedTree} {definition : Definition}
    (hmem : definition ∈ (trees.foldl addTree .empty).definitions) :
    definition ∈ written trees := by
  have hitems (origin : Location) (items : List SyntaxTree) (found : Declarations)
      (hmem : definition ∈
        (items.foldl (fun found item => found.addItem origin item) found).definitions) :
      definition ∈ found.definitions ∨ definition ∈ items.filterMap (ofItem? origin) := by
    induction items generalizing found with
    | nil => exact .inl hmem
    | cons item rest ih =>
        rcases ih _ hmem with hearlier | hlater
        · refine (mem_addItem hearlier).imp_right fun hitem => ?_
          exact List.mem_filterMap.mpr ⟨item, List.mem_cons_self .., hitem⟩
        · obtain ⟨later, hlater, hitem⟩ := List.mem_filterMap.mp hlater
          exact .inr (List.mem_filterMap.mpr ⟨later, List.mem_cons_of_mem _ hlater, hitem⟩)
  have htrees (trees : List PlacedTree) (found : Declarations)
      (hmem : definition ∈ (trees.foldl addTree found).definitions) :
      definition ∈ found.definitions ∨ definition ∈ written trees := by
    induction trees generalizing found with
    | nil => exact .inl hmem
    | cons placed rest ih =>
        rw [written, List.flatMap_cons, List.mem_append, ← or_assoc]
        exact (ih _ hmem).imp_left (hitems placed.origin placed.tree.children found)
  exact (htrees trees .empty hmem).resolve_left List.not_mem_nil

/-- The name of a definition is a token of its file. -/
theorem leaf_of_mem_written {trees : List PlacedTree} {definition : Definition}
    (hmem : definition ∈ written trees) :
    ∃ placed ∈ trees, ∃ leaf ∈ placed.tree.leaves, leaf.text = definition.name := by
  obtain ⟨placed, hplaced, hmem⟩ := List.mem_flatMap.mp hmem
  obtain ⟨item, hitem, hdefinition⟩ := List.mem_filterMap.mp hmem
  simp only [ofItem?] at hdefinition
  split at hdefinition
  · rename_i word name more _ htokens
    split at hdefinition
    · cases hdefinition
    · obtain rfl := Option.some.inj hdefinition
      have hname : name ∈ item.tokens := by simp [htokens]
      exact ⟨placed, hplaced, name, SyntaxTree.mem_leaves_of_mem_children hitem
        (SyntaxTree.mem_leaves_of_mem_tokens hname), rfl⟩
  · cases hdefinition

/-! ## Symbols -/

section

variable (hinjective : Function.Injective symbol)

include hinjective

theorem Renamed.declare (h : Renamed symbol found other) (declared : Symbol) :
    Renamed symbol (found.declare declared)
      (other.declare (declared.rename (.ofSymbol symbol))) := by
  have hfind : other.scope.findSymbol? (declared.rename (.ofSymbol symbol)).name =
      (found.scope.findSymbol? declared.name).map (Symbol.rename (.ofSymbol symbol)) := by
    rw [h.scope]
    exact Scope.findSymbol?_rename hinjective found.scope declared.name
  simp only [Declarations.declare, Scope.declare, hfind]
  cases found.scope.findSymbol? declared.name with
  | none => exact ⟨by simp [h.scope, Scope.rename], h.definitions, h.diagnostics⟩
  | some earlier => exact h.report _ _

theorem Renamed.declareTree (h : Renamed symbol found other) {names : Names}
    (hnames : names.symbol = symbol) (kind : SymbolKind) (count : Nat) (origin : Location)
    {tree : SyntaxTree} (hkind : tree.kind?.any SyntaxKind.namesSymbol = true)
    (parent : SyntaxKind) : Renamed symbol (found.declareTree kind count origin tree)
      (other.declareTree kind count origin (tree.recast names.token parent)) := by
  cases tree with
  | token leaf => cases hkind
  | node own children =>
      rw [Declarations.declareTree, Declarations.declareTree, SyntaxTree.recast_node,
        SyntaxTree.firstToken?_recast]
      cases (SyntaxTree.node own children).firstToken? .identifier with
      | none => exact h
      | some token =>
          have hown : own.namesSymbol = true := hkind
          have htext : (names.token own token).text = symbol token.text := by
            rw [Names.token, Names.text, if_pos hown, hnames]
          simp only [Option.map_some, htext]
          exact h.declare hinjective _

theorem Renamed.declareLabels (h : Renamed symbol found other) {names : Names}
    (hnames : names.symbol = symbol) (origin : Location) (kind : SyntaxKind)
    (children : List SyntaxTree) :
    Renamed symbol (found.declareLabels origin (.node kind children))
      (other.declareLabels origin
        (.node kind (SyntaxTree.recastAll names.token kind children))) := by
  simp only [Declarations.declareLabels, SyntaxTree.children, SyntaxTree.filter_kind_recastAll]
  have hlabels : ∀ label ∈ children.filter (·.kind? == some .label),
      label.kind?.any SyntaxKind.namesSymbol = true := fun label hlabel => by
    rw [beq_iff_eq.mp (List.mem_filter.mp hlabel).2]
    rfl
  generalize children.filter (·.kind? == some .label) = labels at hlabels
  induction labels generalizing found other with
  | nil => exact h
  | cons label rest ih =>
      obtain ⟨hlabel, hrest⟩ := List.forall_mem_cons.mp hlabels
      exact ih (h.declareTree hinjective hnames _ _ origin hlabel kind) hrest

omit hinjective in
theorem parameterCount_recast (names : Names) (kind : SyntaxKind) (children : List SyntaxTree) :
    parameterCount (.node kind (SyntaxTree.recastAll names.token kind children)) =
      parameterCount (.node kind children) := by
  rw [parameterCount, SyntaxTree.firstChild?_recast, parameterCount]
  cases (SyntaxTree.node kind children).firstChild? .parameterList with
  | none => rfl
  | some list =>
      cases list with
      | token leaf => rfl
      | node own tokens =>
          simp only [Option.map_some, SyntaxTree.recast_node, SyntaxTree.tokens_recast,
            List.countP_map]
          rfl

/-! ## Items -/

theorem Renamed.addItem (h : Renamed symbol found other) {names : Names} {item : SyntaxTree}
    (hnames : names.Suit symbol item) (origin : Location) :
    Renamed symbol (found.addItem origin item)
      (other.addItem origin (item.recast names.token .sourceFile)) := by
  cases item with
  | token leaf => exact h
  | node kind children =>
      cases kind with
      | label =>
          exact h.declareTree hinjective hnames.symbol .label 0 origin rfl .sourceFile
      | functionDefinition =>
          have htree := @h.declareTree _ _ _ hinjective _ hnames.symbol .function
            (parameterCount (.node .functionDefinition children)) origin
            (.node .functionDefinition children) rfl .sourceFile
          have hlabels :=
            htree.declareLabels hinjective hnames.symbol origin .functionDefinition children
          simpa only [Declarations.addItem, SyntaxTree.kind?, SyntaxTree.recast_node,
            parameterCount_recast] using hlabels
      | subroutineDefinition =>
          have htree := @h.declareTree _ _ _ hinjective _ hnames.symbol .subroutine 0 origin
            (.node .subroutineDefinition children) rfl .sourceFile
          exact htree.declareLabels hinjective hnames.symbol origin .subroutineDefinition children
      | definition =>
          exact h.recordDefinition (hnames.eq fun hkind => by cases hkind) origin children
      | _ => exact h

theorem Renamed.addTree (h : Renamed symbol found other) {names : SyntaxTree → Names}
    {file : SyntaxTree} (hnames : ∀ item ∈ file.children, (names item).Suit symbol item)
    (origin : Location) : Renamed symbol (found.addTree ⟨file, origin⟩)
      (other.addTree ⟨file.renameItems names, origin⟩) := by
  have hitems (items : List SyntaxTree) (hnames : ∀ item ∈ items, (names item).Suit symbol item) :
      Renamed symbol (items.foldl (fun found item => found.addItem origin item) found)
        ((items.map fun item => item.recast (names item).token .sourceFile).foldl
          (fun other item => other.addItem origin item) other) := by
    induction items generalizing found other with
    | nil => exact h
    | cons item rest ih =>
        obtain ⟨hitem, hrest⟩ := List.forall_mem_cons.mp hnames
        exact ih (h.addItem hinjective hitem origin) hrest
  exact hitems file.children hnames

end

/-! ## Clashes -/

/-- A report that the definition of a value is named like a symbol. -/
def noteClash (scope : Scope) (state : Declarations) (definition : Definition) : Declarations :=
  match scope.findSymbol? definition.name with
  | some symbol =>
      if definition.isRegister then state
      else
        state.report ((NameProblem.duplicateDefinition definition.name).diagnoseDuplicate
          definition.span symbol.span)
  | none => state

theorem reportClashes_eq (found : Declarations) :
    found.reportClashes = found.definitions.foldl (noteClash found.scope) found := rfl

theorem noteClash_within (scope : Scope) (state : Declarations) (definition : Definition) :
    state.Within (noteClash scope state definition) := by
  rw [noteClash]
  split
  · split
    · exact .refl state
    · exact report_within _ state
  · exact .refl state

/-- No value is named like a symbol. -/
def Clashless (found : Declarations) : Prop :=
  ∀ definition ∈ found.definitions, definition.isRegister = false →
    found.scope.findSymbol? definition.name = none

theorem Clashless.reportClashes (h : found.Clashless) : found.reportClashes = found := by
  rw [reportClashes_eq]
  refine List.foldlRecOn (motive := fun state : Declarations => state = found) _ _ rfl
    fun state hstate definition hmem => ?_
  rw [noteClash]
  cases hsort : definition.isRegister with
  | true => cases found.scope.findSymbol? definition.name <;> exact hstate
  | false =>
      rw [h definition hmem hsort]
      exact hstate

theorem clashless_of_quiet (h : found.reportClashes.diagnostics = []) : found.Clashless := by
  intro definition hmem hsort
  by_contra hclash
  obtain ⟨clash, hclash⟩ := Option.ne_none_iff_exists'.mp hclash
  obtain ⟨front, back, hsplit⟩ := List.append_of_mem hmem
  -- What is reported for the definition is still there behind the others.
  have hwithin := foldl_within (noteClash_within found.scope) back
    (noteClash found.scope (front.foldl (noteClash found.scope) found) definition)
  rw [← List.foldl_cons, ← List.foldl_append, ← hsplit, ← reportClashes_eq] at hwithin
  have hnone := List.prefix_nil.mp (h ▸ hwithin.diagnostics)
  rw [noteClash, hclash, hsort] at hnone
  exact List.append_ne_nil_of_right_ne_nil _ (List.cons_ne_nil _ _) hnone

/-- Where the names of symbols are changed and those of values are kept, there are no new clashes.
-/
theorem Renamed.clashless (h : Renamed symbol found other) (hinjective : Function.Injective symbol)
    (hkept : Definition.Kept symbol found.definitions) (hclashless : found.Clashless) :
    other.Clashless := by
  intro twin hmem hsort
  rw [h.definitions] at hmem
  obtain ⟨definition, hdefinition, rfl⟩ := List.mem_map.mp hmem
  have hfind := @Scope.findSymbol?_rename (.ofSymbol symbol) hinjective found.scope definition.name
  rw [hclashless definition hdefinition hsort] at hfind
  have hname : (definition.rename symbol).name = (Names.ofSymbol symbol).symbol definition.name :=
    (hkept definition hdefinition hsort).symm
  rw [h.scope, hname, hfind, Option.map_none]

/-! ## Scopes -/

theorem Renamed.define (h : Renamed symbol found other) (hinjective : Function.Injective symbol)
    (hformed : ∀ definition ∈ found.definitions, definition.Formed)
    (hkept : Definition.Kept symbol found.definitions) {definition : Definition}
    (hmem : definition ∈ found.definitions) (scope : Scope) :
    Follows Evaluation.said (Scope.rename (.ofSymbol symbol)) (found.define scope definition)
      (other.define (scope.rename (.ofSymbol symbol)) (definition.rename symbol)) := by
  have hregister := @Definition.registerOf_follows symbol _ hformed
    (found.definitions.length + 1) [] _ hmem definition.span
  have hvalue := @Definition.valueOf_follows symbol _ found.scope hformed hinjective hkept
    (found.definitions.length + 1) [] _ hmem definition.span
  rw [← h.definitions] at hregister
  rw [← h.definitions, ← h.scope] at hvalue
  have hlength : other.definitions.length = found.definitions.length := by
    rw [h.definitions, List.length_map]
  simp only [Declarations.define, hlength]
  refine .ite Iff.rfl (hregister.bind fun register => ?_) (hvalue.bind fun value => ?_)
  · cases register <;> exact .pure rfl
  · cases value <;> exact .pure rfl

theorem Renamed.defineAll (h : Renamed symbol found other) (hinjective : Function.Injective symbol)
    (hformed : ∀ definition ∈ found.definitions, definition.Formed)
    (hkept : Definition.Kept symbol found.definitions) (hquiet : found.defineAll.2 = []) :
    other.defineAll = (found.defineAll.1.rename (.ofSymbol symbol), []) := by
  obtain ⟨hfound, hsaid⟩ := List.append_eq_nil_iff.mp hquiet
  have hother : other.diagnostics = [] :=
    List.eq_nil_of_length_eq_zero (h.diagnostics.trans (by rw [hfound, List.length_nil]))
  have hfold := Follows.foldlM (fun scope definition hmem =>
    h.define hinjective hformed hkept hmem scope) found.scope
  rw [← h.definitions, ← h.scope] at hfold
  have hrun := (hfold .empty).2 (congrArg List.length hsaid)
  simp only [Declarations.defineAll, StateT.run, hrun, hother]
  exact congrArg (Prod.mk _) hsaid

/-- Values are entered under the names of their definitions. -/
theorem define_values {P : Bytes → Prop} {scope : Scope} {definition : Definition}
    (hscope : ∀ entry ∈ scope.values.entries, P entry.1)
    (hname : definition.isRegister = false → P definition.name) :
    Ensures (found.define scope definition) fun after =>
      ∀ entry ∈ after.values.entries, P entry.1 := by
  simp only [Declarations.define]
  split
  · refine Ensures.behind fun register => ?_
    cases register <;> exact Ensures.pure hscope
  · rename_i hsort
    refine Ensures.behind fun value => ?_
    cases value with
    | none => exact Ensures.pure hscope
    | some value =>
        exact Ensures.pure (NameMap.forall_mem_insertNew hscope
          (hname (Bool.not_eq_true _ ▸ hsort)) value)

theorem defineAll_values {P : Bytes → Prop}
    (hscope : ∀ entry ∈ found.scope.values.entries, P entry.1)
    (hnames : ∀ definition ∈ found.definitions, definition.isRegister = false → P definition.name) :
    ∀ entry ∈ found.defineAll.1.values.entries, P entry.1 := by
  have hfold (definitions : List Definition)
      (hnames : ∀ definition ∈ definitions, definition.isRegister = false → P definition.name)
      (scope : Scope) (hscope : ∀ entry ∈ scope.values.entries, P entry.1) :
      Ensures (definitions.foldlM found.define scope) fun after =>
        ∀ entry ∈ after.values.entries, P entry.1 := by
    induction definitions generalizing scope with
    | nil => exact Ensures.pure hscope
    | cons first rest ih =>
        obtain ⟨hfirst, hrest⟩ := List.forall_mem_cons.mp hnames
        rw [List.foldlM_cons]
        exact (define_values hscope hfirst).bind fun after hafter => ih hrest after hafter
  exact hfold found.definitions hnames found.scope hscope .empty

/-- Values are entered when all has been found. -/
theorem addTree_values (found : Declarations) (placed : PlacedTree) :
    (found.addTree placed).scope.values = found.scope.values := by
  refine List.foldlRecOn (motive := fun later : Declarations =>
    later.scope.values = found.scope.values) _ _ rfl fun later hlater item _ => ?_
  rw [← hlater, addItem]
  split
  · exact (declareTree_records ..).values
  · exact (declareLabels_records ..).values.trans (declareTree_records ..).values
  · exact (declareLabels_records ..).values.trans (declareTree_records ..).values
  · rw [recordDefinition_scope]
  · rfl

/-- A name that only stands for values that keep their names. -/
theorem findValue?_kept {scope : Scope} (hinjective : Function.Injective symbol)
    (hkept : ∀ entry ∈ scope.values.entries, symbol entry.1 = entry.1) (name : Bytes) :
    scope.findValue? (symbol name) = scope.findValue? name := by
  rw [Scope.findValue?, NameMap.find?, Scope.findValue?, NameMap.find?]
  congr 1
  refine List.find?_congr fun entry hentry => ?_
  conv_lhs => rw [← hkept entry hentry]
  exact hinjective.beq_eq

theorem collect_symbols {file : SyntaxTree} {origin : Location} :
    (collect [⟨file, origin⟩]).1.symbols = (addTree .empty ⟨file, origin⟩).scope.symbols := by
  change (addTree .empty ⟨file, origin⟩).reportClashes.defineAll.1.symbols = _
  rw [defineAll_symbols, reportClashes_scope]

/-- Values keep their names where none but symbols get others, if no value is named like a symbol.
-/
theorem kept_of_clashless {file : SyntaxTree} {origin : Location}
    (hclashless : (addTree .empty ⟨file, origin⟩).Clashless)
    (hmoved : ∀ leaf ∈ file.leaves, symbol leaf.text ≠ leaf.text →
      ((collect [⟨file, origin⟩]).1.findSymbol? leaf.text).isSome = true) :
    Definition.Kept symbol (addTree .empty ⟨file, origin⟩).definitions := by
  intro definition hmem hsort
  by_contra hother
  have hwritten : definition ∈ written [⟨file, origin⟩] := mem_written hmem
  obtain ⟨placed, hplaced, leaf, hleaf, htext⟩ := leaf_of_mem_written hwritten
  obtain rfl := List.mem_singleton.mp hplaced
  have hsymbol := hmoved leaf hleaf (htext.symm ▸ hother)
  rw [Scope.findSymbol?, collect_symbols, htext, ← Scope.findSymbol?,
    hclashless definition hmem hsort] at hsymbol
  cases hsymbol

/-- A file without a complaint in which other names are given to symbols: it declares them under
these names, and all that it defines is the same. The names that are changed are those of symbols,
or they do not occur. -/
theorem collect_renamed {names : SyntaxTree → Names} {file : SyntaxTree} {origin : Location}
    (hclean : PlacedTree.Clean ⟨file, origin⟩) (hinjective : Function.Injective symbol)
    (hnames : ∀ item ∈ file.children, (names item).Suit symbol item)
    (hmoved : ∀ leaf ∈ file.leaves, symbol leaf.text ≠ leaf.text →
      ((collect [⟨file, origin⟩]).1.findSymbol? leaf.text).isSome = true)
    (hquiet : (collect [⟨file, origin⟩]).2 = []) :
    collect [⟨file.renameItems names, origin⟩] =
        ((collect [⟨file, origin⟩]).1.rename (.ofSymbol symbol), []) ∧
      ∀ name, (collect [⟨file, origin⟩]).1.findValue? (symbol name) =
        (collect [⟨file, origin⟩]).1.findValue? name := by
  have hempty : Renamed symbol .empty .empty := ⟨rfl, rfl, rfl⟩
  have hrenamed := hempty.addTree hinjective hnames origin
  have hformed (definition : Definition)
      (hmem : definition ∈ (addTree .empty ⟨file, origin⟩).definitions) : definition.Formed :=
    have hwritten : definition ∈ written [⟨file, origin⟩] := mem_written hmem
    written_formed (List.forall_mem_singleton.mpr hclean) definition hwritten
  have hclashless : (addTree .empty ⟨file, origin⟩).Clashless :=
    clashless_of_quiet (List.append_eq_nil_iff.mp hquiet).1
  have hkept := kept_of_clashless hclashless hmoved
  have hcollect : collect [⟨file, origin⟩] = (addTree .empty ⟨file, origin⟩).defineAll :=
    congrArg defineAll hclashless.reportClashes
  have hcollectOther : collect [⟨file.renameItems names, origin⟩] =
      (addTree .empty ⟨file.renameItems names, origin⟩).defineAll :=
    congrArg defineAll (hrenamed.clashless hinjective hkept hclashless).reportClashes
  have hvalues : ∀ entry ∈ (addTree .empty ⟨file, origin⟩).scope.values.entries,
      symbol entry.1 = entry.1 := by
    rw [addTree_values]
    exact List.forall_mem_nil _
  rw [hcollect] at hquiet ⊢
  rw [hcollectOther]
  exact ⟨hrenamed.defineAll hinjective hformed hkept hquiet,
    findValue?_kept hinjective
      (defineAll_values (P := fun name => symbol name = name) hvalues hkept)⟩

end Declarations

end NovelAsm
