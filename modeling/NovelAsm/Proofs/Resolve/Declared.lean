import NovelAsm.CodeUnit.Lowering
import NovelAsm.Proofs.Resolve.Visible
import NovelAsm.Proofs.Session.Program
import NovelAsm.Proofs.Steps
import NovelAsm.Proofs.SyntaxTree.Lossless

/-!
The declarations of a source, once more. `Declarations.declared` lists them in the order of the
text, a name as often as it is declared. The scope of the source knows the first one of each
name, and the routines of the source carry all of them as the labels of their code: a nameless
item, which nothing can refer to, is the only label without a declaration.
-/

namespace NovelAsm

namespace Declarations

/-- The symbol that a tree introduces, if it has a name. -/
def introduced? (kind : SymbolKind) (count : Nat) (origin : Location) (tree : SyntaxTree) :
    Option Symbol :=
  (tree.firstToken? .identifier).map fun name => ⟨name.text, kind, count, name.span.rebase origin⟩

/-- The labels inside a function or subroutine. -/
def labelsIn (body : SyntaxTree) : List SyntaxTree := body.children.filter (·.kind? == some .label)

/-- The symbols that an item declares. -/
def symbolsOf (origin : Location) (tree : SyntaxTree) : List Symbol :=
  match tree.kind? with
  | some .label => (introduced? .label 0 origin tree).toList
  | some .functionDefinition =>
      (introduced? .function (parameterCount tree) origin tree).toList ++
        (labelsIn tree).filterMap (introduced? .label 0 origin)
  | some .subroutineDefinition =>
      (introduced? .subroutine 0 origin tree).toList ++
        (labelsIn tree).filterMap (introduced? .label 0 origin)
  | _ => []

/-- The symbols that a file declares, in the order of its text. -/
def declared (trees : List PlacedTree) : List Symbol :=
  trees.flatMap fun placed => placed.tree.children.flatMap (symbolsOf placed.origin)

/-- What was found, and behind that some symbols: of each name, the first one is known. -/
def Adding (symbols : List Symbol) (found later : Declarations) : Prop :=
  ∀ name, later.scope.findSymbol? name =
    (found.scope.findSymbol? name).or (symbols.find? (·.name == name))

theorem Adding.nil (found : Declarations) : Adding [] found found := fun _ => by simp

theorem Adding.append {symbols more : List Symbol} {found later last : Declarations}
    (h : Adding symbols found later) (hmore : Adding more later last) :
    Adding (symbols ++ more) found last := fun name => by
  rw [hmore, h, Option.or_assoc, List.find?_append]

theorem Adding.foldl {α : Type} {symbols : α → List Symbol}
    {step : Declarations → α → Declarations}
    (h : ∀ found item, Adding (symbols item) found (step found item)) (items : List α)
    (found : Declarations) : Adding (items.flatMap symbols) found (items.foldl step found) := by
  induction items generalizing found with
  | nil => exact .nil found
  | cons item rest ih => exact (h found item).append (ih _)

theorem declare_adding (found : Declarations) (symbol : Symbol) :
    Adding [symbol] found (found.declare symbol) := by
  intro name
  simp only [declare, Scope.declare]
  cases hfind : found.scope.findSymbol? symbol.name with
  | some earlier =>
      by_cases hname : symbol.name = name
      · subst hname
        simp [report, hfind]
      · simp [report, hname]
  | none =>
      simp only [Scope.findSymbol?, List.find?_append]

theorem declareTree_adding (found : Declarations) (kind : SymbolKind) (count : Nat)
    (origin : Location) (tree : SyntaxTree) :
    Adding (introduced? kind count origin tree).toList found
      (found.declareTree kind count origin tree) := by
  rw [declareTree, introduced?]
  cases tree.firstToken? .identifier with
  | none => exact .nil found
  | some name => exact declare_adding found _

theorem declareLabels_adding (found : Declarations) (origin : Location) (body : SyntaxTree) :
    Adding ((labelsIn body).filterMap (introduced? .label 0 origin)) found
      (found.declareLabels origin body) := by
  have hfold := Adding.foldl (fun found label => declareTree_adding found .label 0 origin label)
    (labelsIn body) found
  rwa [← List.filterMap_eq_flatMap_toList] at hfold

theorem recordDefinition_scope (found : Declarations) (origin : Location) (tree : SyntaxTree) :
    (found.recordDefinition origin tree).scope = found.scope := by
  simp only [recordDefinition]
  split
  · split
    · rfl
    · split
      · rfl
      · split <;> rfl
  · rfl

theorem addItem_adding (found : Declarations) (origin : Location) (tree : SyntaxTree) :
    Adding (symbolsOf origin tree) found (found.addItem origin tree) := by
  rw [addItem]
  split
  · rename_i hkind
    rw [symbolsOf, hkind]
    exact declareTree_adding found _ _ origin tree
  · rename_i hkind
    rw [symbolsOf, hkind]
    exact (declareTree_adding found _ _ origin tree).append (declareLabels_adding _ origin tree)
  · rename_i hkind
    rw [symbolsOf, hkind]
    exact (declareTree_adding found _ _ origin tree).append (declareLabels_adding _ origin tree)
  · rename_i hkind
    rw [symbolsOf, hkind]
    exact fun name => by rw [recordDefinition_scope, List.find?_nil, Option.or_none]
  · rename_i hlabel hfunction hsubroutine hdefinition
    have hnone : symbolsOf origin tree = [] := by
      rw [symbolsOf]
      split
      · exact absurd ‹_› hlabel
      · exact absurd ‹_› hfunction
      · exact absurd ‹_› hsubroutine
      · rfl
    rw [hnone]
    exact .nil found

theorem foldl_clashes_scope (scope : Scope) (definitions : List Definition) (state : Declarations) :
    (definitions.foldl (fun state definition =>
      match scope.findSymbol? definition.name with
      | some symbol =>
          if definition.isRegister then state
          else state.report ((NameProblem.duplicateDefinition definition.name).diagnoseDuplicate
            definition.span symbol.span)
      | none => state) state).scope = state.scope := by
  induction definitions generalizing state with
  | nil => rfl
  | cons definition rest ih =>
      rw [List.foldl_cons, ih]
      split
      · split <;> rfl
      · rfl

theorem reportClashes_scope (found : Declarations) : found.reportClashes.scope = found.scope :=
  foldl_clashes_scope found.scope found.definitions found

theorem define_symbols (found : Declarations) (scope : Scope) (definition : Definition) :
    Ensures (found.define scope definition) fun after => after.symbols = scope.symbols := by
  simp only [define]
  split
  · exact Ensures.behind fun register => by cases register <;> exact Ensures.pure rfl
  · exact Ensures.behind fun value => by cases value <;> exact Ensures.pure rfl

theorem defineAll_symbols (found : Declarations) :
    found.defineAll.1.symbols = found.scope.symbols := by
  have hfold (definitions : List Definition) (scope : Scope) :
      Ensures (definitions.foldlM found.define scope) fun after =>
        after.symbols = scope.symbols := by
    induction definitions generalizing scope with
    | nil => exact Ensures.pure rfl
    | cons definition rest ih =>
        rw [List.foldlM_cons]
        exact (define_symbols found scope definition).bind fun after hafter =>
          (ih after).mono fun _ hlast => hlast.trans hafter
  exact hfold found.definitions found.scope .empty

/-- Of each name, the scope of a file knows the first declaration. -/
theorem findSymbol?_collect (trees : List PlacedTree) (name : Bytes) :
    (collect trees).1.findSymbol? name = (declared trees).find? (·.name == name) := by
  have hadding : Adding (declared trees) .empty (trees.foldl addTree .empty) := Adding.foldl
    (fun found placed => Adding.foldl (fun found item => addItem_adding found placed.origin item)
      placed.tree.children found) trees .empty
  have hsymbols : (collect trees).1.symbols = (trees.foldl addTree .empty).scope.symbols := by
    rw [collect, defineAll_symbols, reportClashes_scope]
  rw [Scope.findSymbol?, hsymbols]
  exact hadding name

end Declarations

/-- What a label of a routine stands for. -/
def SymbolKind.ofRoutine : RoutineKind → SymbolKind
  | .script => .label
  | .function => .function
  | .subroutine => .subroutine

/-- The name that a statement puts in front of the next one. -/
def Statement.label? : Statement → Option (Bytes × SymbolKind × Nat)
  | .label _ name => some (name, .label, 0)
  | .instruction _ _ _ => none

namespace Routine

open Declarations (labelsIn)

/-- The names that a routine gives to places of its code. -/
def labels (routine : Routine) : List (Bytes × SymbolKind × Nat) :=
  (routine.name, .ofRoutine routine.kind,
    if routine.kind = .function then routine.parameterCount else 0) ::
      routine.statements.filterMap Statement.label?

/-- The names that an item gives to places of its code. -/
def labelsOf (tree : SyntaxTree) : List (Bytes × SymbolKind × Nat) :=
  match tree.kind? with
  | some .label => [(nameOf tree, .label, 0)]
  | some .functionDefinition =>
      (nameOf tree, .function, Declarations.parameterCount tree) ::
        (labelsIn tree).map fun label => (nameOf label, .label, 0)
  | some .subroutineDefinition =>
      (nameOf tree, .subroutine, 0) ::
        (labelsIn tree).map fun label => (nameOf label, .label, 0)
  | _ => []

theorem readInstruction_label? (scope : Scope) (aliases : Aliases) (tree : SyntaxTree) :
    Ensures (readInstruction scope aliases tree) fun statement => statement.label? = none := by
  simp only [readInstruction]
  split
  · exact Ensures.behind fun _ => Ensures.pure rfl
  · exact Ensures.pure rfl

theorem readBody_labels (scope : Scope) (aliases : Aliases) (trees : List SyntaxTree) :
    Ensures (readBody scope aliases trees) fun statements =>
      statements.filterMap Statement.label? =
        (trees.filter (·.kind? == some .label)).map fun label => (nameOf label, .label, 0) := by
  induction trees with
  | nil => exact Ensures.pure rfl
  | cons tree rest ih =>
      simp only [readBody]
      split
      · rename_i hkind
        exact ih.bind fun statements hstatements => Ensures.pure (by
          simp [Statement.label?, hkind, hstatements])
      · rename_i hkind
        refine (readInstruction_label? scope aliases tree).bind fun first hfirst =>
          ih.bind fun statements hstatements => Ensures.pure ?_
        simp [hfirst, hkind, hstatements]
      · rename_i hlabel _
        rw [List.filter_cons_of_neg (by simpa using hlabel)]
        exact ih

theorem readProcedure_labels (scope : Scope) (kind : RoutineKind) (tree : SyntaxTree) :
    Ensures (readProcedure scope kind tree) fun routine => routine.labels =
      (nameOf tree, .ofRoutine kind,
        if kind = .function then Declarations.parameterCount tree else 0) ::
        (labelsIn tree).map fun label => (nameOf label, .label, 0) := by
  have hcount : (((tree.firstChild? .parameterList).map registerTokens).getD []).length =
      Declarations.parameterCount tree := by
    rw [Declarations.parameterCount]
    cases tree.firstChild? .parameterList with
    | none => rfl
    | some list => exact List.countP_eq_length_filter.symm
  refine Ensures.behind fun aliases => Ensures.behind fun preserved =>
    (readBody_labels scope aliases tree.children).bind fun statements hstatements =>
      Ensures.pure ?_
  simp only [labels, hstatements, hcount]
  rfl

/-- A statement of a script is an instruction. -/
theorem labels_extend (script : Routine) {statement : Statement} (h : statement.label? = none)
    (span : Span) : (script.extend statement span).labels = script.labels := by
  have hlabels : (script.statements ++ [statement]).filterMap Statement.label? =
      script.statements.filterMap Statement.label? := by
    simp [h]
  rw [labels, labels]
  exact congrArg (List.cons _) hlabels

theorem readItems_labels (scope : Scope) (current : Option Routine) (items : List SyntaxTree) :
    Ensures (readItems scope current items) fun routines => routines.flatMap labels =
      current.toList.flatMap labels ++ items.flatMap labelsOf := by
  induction items generalizing current with
  | nil => exact Ensures.pure (by simp)
  | cons tree rest ih =>
      simp only [readItems]
      split
      · rename_i hkind
        refine (ih (some (openScript tree))).bind fun routines hroutines => Ensures.pure ?_
        simp [hroutines, labelsOf, hkind, labels, openScript, SymbolKind.ofRoutine]
      · rename_i hkind
        have hnone : labelsOf tree = [] := by rw [labelsOf, hkind]
        cases current with
        | none =>
            refine Ensures.behind fun _ => ?_
            simpa [hnone] using ih none
        | some script =>
            refine (readInstruction_label? scope [] tree).bind fun statement hstatement => ?_
            simpa [hnone, labels_extend script hstatement] using
              ih (some (script.extend statement tree.span))
      · rename_i hkind
        refine (readProcedure_labels scope .function tree).bind fun routine hroutine =>
          (ih none).bind fun routines hroutines => Ensures.pure ?_
        simp [hroutine, hroutines, labelsOf, hkind, SymbolKind.ofRoutine]
      · rename_i hkind
        refine (readProcedure_labels scope .subroutine tree).bind fun routine hroutine =>
          (ih none).bind fun routines hroutines => Ensures.pure ?_
        simp [hroutine, hroutines, labelsOf, hkind, SymbolKind.ofRoutine]
      · rename_i hkind
        refine (ih none).bind fun routines hroutines => Ensures.pure ?_
        simp [hroutines, labelsOf, hkind]
      · rename_i hlabel _ hfunction hsubroutine _
        have hnone : labelsOf tree = [] := by
          rw [labelsOf]
          split
          · exact absurd ‹_› hlabel
          · exact absurd ‹_› hfunction
          · exact absurd ‹_› hsubroutine
          · rfl
        simpa [hnone] using ih current

/-- The routines of a tree give the names that its items give, in their order. -/
theorem resolve_labels (scope : Scope) (tree : SyntaxTree) :
    (resolve scope tree).1.flatMap labels = tree.children.flatMap labelsOf :=
  readItems_labels scope none tree.children []

/-- The labels of the code of a routine are the names that it gives. -/
theorem lowerStatements_labels (routine : Routine) (code : CodeUnit) (ended : Bool)
    (statements : List Statement) :
    Ensures (routine.lowerStatements code ended statements) fun lowered =>
      lowered.1.labels.map LabelMark.name = code.labels.map LabelMark.name ++
        (statements.filterMap Statement.label?).map Prod.fst := by
  induction statements generalizing code ended with
  | nil => exact Ensures.pure (by simp)
  | cons first rest ih =>
      cases first with
      | label span name =>
          refine (ih (code.placeLabel name span) false).mono fun lowered hlowered => ?_
          simp [hlowered, CodeUnit.placeLabel, Statement.label?]
      | instruction span mnemonic arguments =>
          rw [List.filterMap_cons_none (show Statement.label? (.instruction ..) = none from rfl)]
          exact Ensures.behind fun lowered => ih (code.append lowered.1) lowered.2

theorem lower_labels (routine : Routine) :
    routine.lower.1.labels.map LabelMark.name = routine.labels.map Prod.fst := by
  have hlabels := routine.lowerStatements_labels
    (((CodeUnit.empty routine.kind routine.name).placeLabel routine.name routine.span).append
      routine.prologue) false routine.statements []
  simp only [lower, StateT.run]
  generalize routine.lowerStatements _ false routine.statements [] = lowered at hlabels ⊢
  obtain ⟨⟨code, ended⟩, diagnostics⟩ := lowered
  cases ended <;> exact hlabels

/-- Where each identifier has bytes, the names of an item that are not empty are those of the
symbols that it declares. -/
theorem filter_labelsOf {tree : SyntaxTree}
    (h : ∀ token ∈ tree.leaves, token.kind = .identifier → token.text ≠ []) (origin : Location) :
    (labelsOf tree).filter (·.1 ≠ []) =
      (Declarations.symbolsOf origin tree).map Symbol.outline := by
  have hname {child : SyntaxTree}
      (hchild : ∀ token ∈ child.leaves, token.kind = .identifier → token.text ≠ [])
      (kind : SymbolKind) (count : Nat) :
      [(nameOf child, kind, count)].filter (·.1 ≠ []) =
        (Declarations.introduced? kind count origin child).toList.map Symbol.outline := by
    rw [Declarations.introduced?, nameOf]
    cases hfirst : child.firstToken? .identifier with
    | none => simp
    | some token =>
        have hidentifier : token.kind = .identifier := by
          simpa using List.find?_some hfirst
        have hmem : token ∈ child.leaves :=
          SyntaxTree.mem_leaves_of_mem_tokens (List.mem_of_find?_eq_some hfirst)
        simp [hchild token hmem hidentifier, Symbol.outline]
  have hlabels : ((labelsIn tree).map fun label => (nameOf label, SymbolKind.label, 0)).filter
      (·.1 ≠ []) = ((labelsIn tree).filterMap (Declarations.introduced? .label 0 origin)).map
        Symbol.outline := by
    have hchildren : ∀ label ∈ labelsIn tree, ∀ token ∈ label.leaves,
        token.kind = .identifier → token.text ≠ [] := fun label hlabel token htoken =>
      h token (SyntaxTree.mem_leaves_of_mem_children (List.mem_filter.mp hlabel).1 htoken)
    generalize labelsIn tree = trees at hchildren
    induction trees with
    | nil => rfl
    | cons label rest ih =>
        have hrest := ih fun other hother => hchildren other (List.mem_cons_of_mem _ hother)
        have hfirst := hname (hchildren label (List.mem_cons_self ..)) .label 0
        rw [List.filterMap_eq_flatMap_toList] at hrest ⊢
        rw [List.map_cons, List.flatMap_cons, List.map_append, ← hrest, ← hfirst,
          ← List.filter_append, List.singleton_append]
  simp only [labelsOf, Declarations.symbolsOf]
  split
  · exact hname h .label 0
  · rw [List.map_append, ← hlabels, ← hname h, ← List.filter_append, List.singleton_append]
  · rw [List.map_append, ← hlabels, ← hname h, ← List.filter_append, List.singleton_append]
  · rfl

end Routine

namespace Session

/-- The symbols that a source declares, in the order of its text. -/
def declared (source : Bytes) : List Symbol :=
  Declarations.declared ((reads source).map ReadSegment.placedTree)

/-- The routines of a source, each with the place from which its spans count. -/
def routines (source : Bytes) : List (Location × Routine) :=
  (reads source).flatMap fun read =>
    (Routine.resolve (scopeOf source) read.kept.parsed.tree).1.map fun routine =>
      (read.origin, routine)

/-- Of each name, the resolver knows the first declaration in a source. -/
theorem findSymbol?_scopeOf (source : Bytes) (name : Bytes) :
    (scopeOf source).findSymbol? name = (declared source).find? (·.name == name) :=
  Declarations.findSymbol?_collect _ name

/-- The labels of a source that have a name are its declarations, in their order. -/
theorem filter_labels (source : Bytes) :
    ((routines source).flatMap fun entry => entry.2.labels).filter (·.1 ≠ []) =
      (declared source).map Symbol.outline := by
  have hitems (read : ReadSegment) (hread : read ∈ reads source) (item : SyntaxTree)
      (hitem : item ∈ read.kept.parsed.tree.children) :
      (Routine.labelsOf item).filter (·.1 ≠ []) =
        (Declarations.symbolsOf read.origin item).map Symbol.outline := by
    refine Routine.filter_labelsOf (fun token htoken hkind => ?_) read.origin
    have hleaf := SyntaxTree.mem_leaves_of_mem_children hitem htoken
    rw [(readAlone_of_mem hread).2.1] at hleaf
    exact ParsedSource.text_ne_nil_of_mem_leaves hleaf (by simp [hkind])
  have hlabels : ((routines source).flatMap fun entry => entry.2.labels) =
      (reads source).flatMap fun read =>
        read.kept.parsed.tree.children.flatMap Routine.labelsOf := by
    simp only [routines, List.flatMap_assoc, List.flatMap_map, Routine.resolve_labels]
  rw [hlabels, declared, Declarations.declared, List.flatMap_map, List.map_flatMap,
    List.filter_flatMap]
  refine List.flatMap_congr fun read hread => ?_
  rw [List.filter_flatMap, List.map_flatMap]
  exact List.flatMap_congr fun item hitem => hitems read hread item hitem

end Session

end NovelAsm
