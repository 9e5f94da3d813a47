import NovelAsm.Resolve.Definitions
import NovelAsm.Proofs.Erasure.Routines

/-!
Declarations without places. What the trees of a file declare depends on their items alone,
one behind another, however these are divided among the trees.
-/

namespace NovelAsm

namespace Evaluation

/-- An evaluation whose diagnostics have no places. -/
def bare (state : Evaluation) : Evaluation :=
  { state with diagnostics := Diagnostics.bare state.diagnostics }

theorem bare_report (diagnostic : Diagnostic) (state : Evaluation) :
    state.bare.report diagnostic.bare = (state.report diagnostic).bare := by
  simp [report, bare, Diagnostics.bare]

theorem complain_erases (problem : NameProblem) (span : Span) :
    Erases bare id (complain problem span) (complain problem .origin) :=
  Erases.modify fun start => bare_report (problem.diagnose span) start

theorem reporting_erases {α β : Type} {result : α → β} {step : Reporting α} {other : Reporting β}
    (h : Erases (Diagnostics.bareBehind []) result step other) :
    Erases bare result (reporting step) (reporting other) := fun start => by
  have hrun : other start.bare.diagnostics = _ := h start.diagnostics
  change ((other start.bare.diagnostics).1,
    { start.bare with diagnostics := (other start.bare.diagnostics).2 }) = _
  rw [hrun]
  rfl

end Evaluation

namespace Definition

/-- A definition without its places. -/
def bare (definition : Definition) : Definition :=
  { definition with
    value := definition.value.map SyntaxTree.core
    span := .origin
    origin := .origin }

theorem find?_bare (definitions : List Definition) (name : Bytes) (isRegister : Bool) :
    find? (definitions.map bare) name isRegister =
      (find? definitions name isRegister).map bare := by
  simp only [find?, List.find?_map]
  rfl

theorem complainSelf_erases (definition : Definition) (use : Span) :
    Erases Evaluation.bare id (Evaluation.complainSelf definition use)
      (Evaluation.complainSelf definition.bare .origin) :=
  Erases.modify fun start => by
    rw [← Evaluation.bare_report, Diagnostic.bare_withNote]
    rfl

theorem aliasToken?_bare (definition : Definition) :
    definition.bare.aliasToken? = definition.aliasToken?.map Token.bare := by
  simp only [aliasToken?, bare]
  cases definition.value with
  | none => rfl
  | some tree =>
      simp only [Option.map_some, Option.bind_some, SyntaxTree.kind?_core,
        SyntaxTree.firstSignificant?_core]
      split <;> rfl

section

variable (definitions : List Definition) (scope : Scope)

theorem naming_bares (origin : Location)
    {value other : Definition → Span → StateM Evaluation (Option Value)}
    (h : ∀ definition use,
      Erases Evaluation.bare id (value definition use) (other definition.bare .origin)) :
    (naming definitions scope origin value).Bares Evaluation.bare
      (naming (definitions.map bare) scope.bare .origin other) where
  base := rfl
  report diagnostic start := Evaluation.bare_report diagnostic start
  meaning name span := by
    simp only [naming, find?_bare]
    cases find? definitions name false with
    | some definition =>
        refine (h definition span).bind fun value => ?_
        cases value <;> exact Erases.pure rfl
    | none =>
        simp only [Option.map_none, Scope.findSymbol?_bare]
        cases scope.findSymbol? name <;> exact Erases.pure rfl
  register name span := (Evaluation.complain_erases _ span).bind fun _ => Erases.pure rfl

theorem evaluateTree_erases {naming other : Naming Evaluation}
    (h : naming.Bares Evaluation.bare other) (tree : SyntaxTree) :
    Erases Evaluation.bare id (evaluateTree naming tree) (evaluateTree other tree.core) := by
  refine (Naming.read_erases h tree).bind fun expr => Erases.ite ?_ (fun _ => Erases.pure rfl)
    fun _ => Evaluation.reporting_erases (Expr.evaluate_erases expr)
  rw [Expr.isError_bare]

theorem valueOf_erases (depth : Nat) (path : List Bytes) (definition : Definition) (use : Span) :
    Erases Evaluation.bare id (valueOf definitions scope depth path definition use)
      (valueOf (definitions.map bare) scope.bare depth path definition.bare .origin) := by
  induction depth generalizing path definition use with
  | zero => exact Erases.pure rfl
  | succ depth ih =>
      have hsettle (value : Option Value) : Erases Evaluation.bare id
          (do
            modify fun state : Evaluation =>
              { state with values := state.values.insertNew definition.name value }
            return value)
          (do
            modify fun state : Evaluation =>
              { state with values := state.values.insertNew definition.name value }
            return value) := by
        refine Erases.bind (Erases.modify ?_) fun _ => Erases.pure rfl
        exact fun _ => rfl
      have hnaming := naming_bares definitions scope definition.origin
        fun target span => ih (definition.name :: path) target span
      simp only [valueOf]
      refine Erases.get.bind fun start => ?_
      have hsettled : start.bare.values.find? definition.bare.name =
          start.values.find? definition.name := rfl
      rw [hsettled]
      cases start.values.find? definition.name with
      | some settled => exact Erases.pure rfl
      | none =>
          refine Erases.ite Iff.rfl
            (fun _ => (complainSelf_erases definition use).bind fun _ => Erases.pure rfl)
            fun _ => ?_
          cases hvalue : definition.value with
          | none =>
              simp only [bare, hvalue, Option.map_none]
              exact hsettle none
          | some tree =>
              simp only [bare, hvalue, Option.map_some]
              exact (evaluateTree_erases hnaming tree).bind fun value => hsettle value

theorem registerOf_erases (depth : Nat) (path : List Bytes) (definition : Definition) (use : Span) :
    Erases Evaluation.bare id (registerOf definitions depth path definition use)
      (registerOf (definitions.map bare) depth path definition.bare .origin) := by
  induction depth generalizing path definition use with
  | zero => exact Erases.pure rfl
  | succ depth ih =>
      have hsettle (register : Option Register) : Erases Evaluation.bare id
          (do
            modify fun state : Evaluation =>
              { state with registers := state.registers.insertNew definition.name register }
            return register)
          (do
            modify fun state : Evaluation =>
              { state with registers := state.registers.insertNew definition.name register }
            return register) := by
        refine Erases.bind (Erases.modify ?_) fun _ => Erases.pure rfl
        exact fun _ => rfl
      have hspan : Span.origin.rebase definition.bare.origin = .origin := Span.rebase_origin
      simp only [registerOf]
      refine Erases.get.bind fun start => ?_
      have hsettled : start.bare.registers.find? definition.bare.name =
          start.registers.find? definition.name := rfl
      rw [hsettled]
      cases start.registers.find? definition.name with
      | some settled => exact Erases.pure rfl
      | none =>
          refine Erases.ite Iff.rfl
            (fun _ => (complainSelf_erases definition use).bind fun _ => Erases.pure rfl)
            fun _ => ?_
          rw [aliasToken?_bare]
          cases definition.aliasToken? with
          | some token =>
              simp only [Option.map_some, Token.text_bare, Token.span_bare, find?_bare, hspan]
              cases find? definitions token.text true with
              | some target =>
                  exact (ih _ target _).bind hsettle
              | none =>
                  simp only [Option.map_none]
                  cases Register.parse? token.text with
                  | some builtin => exact hsettle (some builtin)
                  | none =>
                      refine (Evaluation.complain_erases _ _).bind fun _ => ?_
                      exact hsettle none
          | none =>
              cases hvalue : definition.value with
              | none =>
                  simp only [bare, hvalue, Option.map_none]
                  exact hsettle none
              | some tree =>
                  simp only [bare, hvalue, Option.map_some, Option.map_none, SyntaxTree.span_core,
                    Span.rebase_origin]
                  refine (Evaluation.complain_erases _ _).bind fun _ => ?_
                  exact hsettle none

end

end Definition

namespace Declarations

/-- Declarations without places. -/
def bare (found : Declarations) : Declarations :=
  ⟨found.scope.bare, found.definitions.map Definition.bare, Diagnostics.bare found.diagnostics⟩

theorem bare_report (diagnostic : Diagnostic) (found : Declarations) :
    found.bare.report diagnostic.bare = (found.report diagnostic).bare := by
  simp [report, bare, Diagnostics.bare]

theorem declare_bare (found : Declarations) (symbol : Symbol) :
    found.bare.declare symbol.bare = (found.declare symbol).bare := by
  have hfind : found.bare.scope.findSymbol? symbol.bare.name =
      (found.scope.findSymbol? symbol.name).map Symbol.bare := Scope.findSymbol?_bare _ _
  simp only [declare, Scope.declare, hfind]
  cases found.scope.findSymbol? symbol.name with
  | none => simp [bare, Scope.bare]
  | some earlier =>
      rw [← bare_report, NameProblem.bare_diagnoseDuplicate]
      rfl

theorem declareTree_core (found : Declarations) (kind : SymbolKind) (parameterCount : Nat)
    (origin : Location) (tree : SyntaxTree) :
    found.bare.declareTree kind parameterCount .origin tree.core =
      (found.declareTree kind parameterCount origin tree).bare := by
  simp only [declareTree, SyntaxTree.firstToken?_core]
  cases tree.firstToken? .identifier with
  | none => rfl
  | some name =>
      simp only [Option.map_some, ← declare_bare, Symbol.bare, Token.text_bare, Token.span_bare,
        Span.rebase_origin]

theorem declareLabels_core (found : Declarations) (origin : Location) (body : SyntaxTree) :
    found.bare.declareLabels .origin body.core = (found.declareLabels origin body).bare := by
  simp only [declareLabels, SyntaxTree.children_core, SyntaxTree.filter_kind_coreAll]
  generalize body.children.filter (·.kind? == some .label) = labels
  induction labels generalizing found with
  | nil => rfl
  | cons label rest ih =>
      simp only [List.map_cons, List.foldl_cons, declareTree_core found .label 0 origin, ih]

theorem parameterCount_core (function : SyntaxTree) :
    parameterCount function.core = parameterCount function := by
  rw [parameterCount, parameterCount, SyntaxTree.firstChild?_core]
  cases function.firstChild? .parameterList with
  | none => rfl
  | some list =>
      simp only [Option.map_some, SyntaxTree.tokens_core, List.countP_map]
      rfl

theorem recordDefinition_core (found : Declarations) (origin : Location) (tree : SyntaxTree) :
    found.bare.recordDefinition .origin tree.core = (found.recordDefinition origin tree).bare := by
  have hvalue : tree.core.childNodes.head? = tree.childNodes.head?.map SyntaxTree.core := by
    rw [SyntaxTree.childNodes_core, List.head?_map]
  have hearlier (name : Bytes) : found.bare.definitions.find? (·.name == name) =
      (found.definitions.find? (·.name == name)).map Definition.bare := by
    simp only [bare, List.find?_map]
    rfl
  have hreport (name : Token) : found.bare.report ((NameProblem.builtinRedefined
      name.text).diagnose .origin) = (found.report ((NameProblem.builtinRedefined
        name.text).diagnose (name.span.rebase origin))).bare := by
    rw [← bare_report, NameProblem.bare_diagnose]
  simp only [recordDefinition, SyntaxTree.tokens_core, hvalue]
  match tree.tokens with
  | [] | [_] => rfl
  | _ :: name :: _ =>
      simp only [List.map_cons, Token.kind_bare, Token.text_bare, Token.span_bare,
        Span.rebase_origin, hearlier, hreport, apply_ite bare]
      cases found.definitions.find? (·.name == name.text) with
      | none =>
          simp only [Option.map_none, bare, List.map_append]
          rfl
      | some earlier =>
          simp only [Option.map_some, ← bare_report, NameProblem.bare_diagnoseDuplicate]
          rfl

theorem addItem_core (found : Declarations) (origin : Location) (tree : SyntaxTree) :
    found.bare.addItem .origin tree.core = (found.addItem origin tree).bare := by
  simp only [addItem, SyntaxTree.kind?_core]
  split
  · exact declareTree_core ..
  · rw [parameterCount_core, declareTree_core found .function _ origin, declareLabels_core]
  · rw [declareTree_core found .subroutine _ origin, declareLabels_core]
  · exact recordDefinition_core ..
  · rfl

/-- A tree adds what its items add. -/
theorem addTree_bare (found : Declarations) (placed : PlacedTree) :
    (found.addTree placed).bare =
      (SyntaxTree.coreAll placed.tree.children).foldl (fun found item => found.addItem .origin item)
        found.bare := by
  rw [addTree]
  generalize placed.tree.children = items
  induction items generalizing found with
  | nil => simp [SyntaxTree.coreAll]
  | cons item rest ih =>
      cases item with
      | token leaf =>
          have hitem : found.addItem placed.origin (.token leaf) = found := rfl
          rw [List.foldl_cons, hitem, ih, SyntaxTree.coreAll]
          split <;> rfl
      | node kind children =>
          rw [List.foldl_cons, ih, SyntaxTree.coreAll_node_cons, List.foldl_cons, addItem_core]

/-- What the items of a file declare, without places. -/
def ofItems (items : List SyntaxTree) : Declarations :=
  items.foldl (fun found item => found.addItem .origin item) .empty

theorem addTrees_bare (trees : List PlacedTree) :
    (trees.foldl addTree .empty).bare =
      ofItems (trees.flatMap fun placed => SyntaxTree.coreAll placed.tree.children) := by
  have hall (found : Declarations) : (trees.foldl addTree found).bare =
      (trees.flatMap fun placed => SyntaxTree.coreAll placed.tree.children).foldl
        (fun found item => found.addItem .origin item) found.bare := by
    induction trees generalizing found with
    | nil => rfl
    | cons placed rest ih =>
        rw [List.foldl_cons, ih, addTree_bare, List.flatMap_cons, List.foldl_append]
  exact hall .empty

/-- The fold reports into its state and looks names up in what was found before. -/
theorem foldl_clashes_bare (found : Declarations) (definitions : List Definition)
    (state : Declarations) :
    (definitions.map Definition.bare).foldl
      (fun state definition =>
        match found.bare.scope.findSymbol? definition.name with
        | some symbol =>
            if definition.isRegister then state
            else
              state.report ((NameProblem.duplicateDefinition
                definition.name).diagnoseDuplicate definition.span symbol.span)
        | none => state) state.bare =
    (definitions.foldl
      (fun state definition =>
        match found.scope.findSymbol? definition.name with
        | some symbol =>
            if definition.isRegister then state
            else
              state.report ((NameProblem.duplicateDefinition
                definition.name).diagnoseDuplicate definition.span symbol.span)
        | none => state) state).bare := by
  induction definitions generalizing state with
  | nil => rfl
  | cons definition rest ih =>
      have hfind : found.bare.scope.findSymbol? definition.bare.name =
          (found.scope.findSymbol? definition.name).map Symbol.bare := Scope.findSymbol?_bare _ _
      simp only [List.map_cons, List.foldl_cons, hfind]
      rw [← ih]
      cases found.scope.findSymbol? definition.name with
      | none => rfl
      | some symbol =>
          simp only [Option.map_some, apply_ite bare, ← bare_report,
            NameProblem.bare_diagnoseDuplicate]
          rfl

theorem reportClashes_bare (found : Declarations) :
    found.bare.reportClashes = found.reportClashes.bare := by
  simp only [reportClashes]
  exact foldl_clashes_bare found found.definitions found

theorem define_erases (found : Declarations) (scope : Scope) (definition : Definition) :
    Erases Evaluation.bare Scope.bare (found.define scope definition)
      (found.bare.define scope.bare definition.bare) := by
  simp only [define, bare, List.length_map]
  refine Erases.ite Iff.rfl (fun _ => ?_) fun _ => ?_
  · refine (Definition.registerOf_erases found.definitions _ [] definition _).bind
      fun register => ?_
    cases register <;> exact Erases.pure rfl
  · refine (Definition.valueOf_erases found.definitions found.scope _ [] definition _).bind
      fun value => ?_
    cases value <;> exact Erases.pure rfl

theorem defineAll_bare (found : Declarations) :
    found.bare.defineAll = (found.defineAll.1.bare, Diagnostics.bare found.defineAll.2) := by
  have hrun : (found.bare.definitions.foldlM found.bare.define found.bare.scope) .empty = _ :=
    Erases.foldlM (define_erases found) found.definitions found.scope .empty
  rw [defineAll, defineAll, StateT.run, StateT.run, hrun]
  exact Prod.ext rfl (Diagnostics.bare_append _ _).symm

/-- The scope of a file without its places, and the diagnostics of its declarations, are those
of its items. -/
theorem collect_bare (trees : List PlacedTree) :
    ((collect trees).1.bare, Diagnostics.bare (collect trees).2) =
      (ofItems (trees.flatMap fun placed =>
        SyntaxTree.coreAll placed.tree.children)).reportClashes.defineAll := by
  rw [← addTrees_bare, reportClashes_bare, defineAll_bare]
  rfl

end Declarations

end NovelAsm
