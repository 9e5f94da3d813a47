import Mathlib
import NovelAsm.Listing
import NovelAsm.Proofs.Erasure.Declarations
import NovelAsm.Proofs.Layout.Trees

/-!
Resolution without layout. What names a file declares, what its definitions are worth and
which routines it has can all be told from its joined trees: they are read like the cores
that they come from.
-/

namespace NovelAsm

open SyntaxTree

namespace Naming

variable {σ : Type} (naming : Naming σ)

theorem spanOf_joined (tree : SyntaxTree) :
    naming.spanOf tree.joined = naming.spanOf tree.core := by
  rw [spanOf, spanOf, span_joined, span_core]

theorem operator?_joined {kind : SyntaxKind} (hkind : kind ≠ .instruction)
    (children : List SyntaxTree) :
    operator? (SyntaxTree.node kind children).joined =
      operator? (SyntaxTree.node kind children).core := by
  rw [operator?, operator?, find?_tokens_joined (fun _ => rfl) (fun _ h => by simpa using h)
    (fun h => absurd h hkind)]

theorem firstToken?_joined {kind : SyntaxKind} (hkind : kind ≠ .instruction)
    {wanted : TokenKind} (hwanted : wanted ≠ .newline) (children : List SyntaxTree) :
    (SyntaxTree.node kind children).joined.firstToken? wanted =
      (SyntaxTree.node kind children).core.firstToken? wanted := by
  refine find?_tokens_joined (fun _ => rfl) (fun token h hnewline => ?_) (fun h => absurd h hkind)
    children
  exact hwanted ((beq_iff_eq.mp h).symm.trans hnewline)

theorem callee?_joined {kind : SyntaxKind} (hkind : kind ≠ .instruction)
    (children : List SyntaxTree) :
    callee? (SyntaxTree.node kind children).joined =
      callee? (SyntaxTree.node kind children).core := by
  rw [callee?, callee?, firstToken?_joined hkind (by decide)]

theorem readAll_mnemonic (kind : SyntaxKind) (children rest : List SyntaxTree) :
    naming.readAll (mnemonic kind children ++ rest) = naming.readAll rest := by
  unfold mnemonic
  split
  · rw [List.singleton_append, readAll]
  · rfl

mutual

theorem read_joined : ∀ tree : SyntaxTree, naming.read tree.joined = naming.read tree.core
  | .token leaf => by simp only [joined, core]
  | .node kind children => by
      cases hone : kind.isOneToken with
      | true => rw [joined_eq_core hone]
      | false =>
          have hall : naming.readAll (mnemonic kind children ++
              joinedAll (kind == .definition) children) = naming.readAll (coreAll children) := by
            rw [readAll_mnemonic, readAll_joined children]
          have hspan := spanOf_joined naming (.node kind children)
          have hoperator (hkind : kind ≠ .instruction) := operator?_joined hkind children
          have hcallee (hkind : kind ≠ .instruction) := callee?_joined hkind children
          rw [joined_of_not_oneToken hone, core_node] at hspan hoperator hcallee ⊢
          simp only [read, hall, hspan]
          cases kind with
          | literalExpr | registerExpr | nameExpr => cases hone
          | unaryExpr | binaryExpr => rw [hoperator (by decide)]
          | callExpr => rw [hcallee (by decide)]
          | _ => rfl

theorem readAll_joined {keep : Bool} : ∀ trees : List SyntaxTree,
    naming.readAll (joinedAll keep trees) = naming.readAll (coreAll trees)
  | [] => by simp only [joinedAll, coreAll]
  | .token leaf :: rest => by
      have hrest := @readAll_joined keep rest
      simp only [joinedAll, coreAll]
      split
      · rename_i hleaf
        rw [if_pos ((Bool.and_eq_true _ _).mp hleaf).1]
        simp only [readAll, hrest]
      · split
        · simp only [readAll, hrest]
        · exact hrest
  | .node kind children :: rest => by
      have hfirst := read_joined (.node kind children)
      have hrest := @readAll_joined keep rest
      rw [joinedAll_node_cons, coreAll_node_cons]
      rw [joined_node, core_node] at hfirst ⊢
      simp only [readAll, hfirst, hrest]

end

theorem readAll_children_joined (tree : SyntaxTree) :
    naming.readAll tree.joined.children = naming.readAll tree.core.children := by
  cases tree with
  | token leaf => simp only [joined, core]
  | node kind trees =>
      cases hone : kind.isOneToken with
      | true => rw [joined_eq_core hone]
      | false =>
          rw [joined_of_not_oneToken hone, core_node]
          exact (readAll_mnemonic naming kind trees _).trans (readAll_joined naming trees)

theorem readCase_joined (entry : SyntaxTree) :
    naming.readCase entry.joined = naming.readCase entry.core := by
  rw [readCase, readCase, spanOf_joined, readAll_children_joined]

theorem mapM_readCase_joined (entries : List SyntaxTree) :
    (entries.map joined).mapM naming.readCase = (entries.map core).mapM naming.readCase := by
  rw [List.mapM_map, List.mapM_map]
  exact congrArg (entries.mapM ·) (funext fun entry => readCase_joined naming entry)

theorem readArgument_joined (tree : SyntaxTree) :
    naming.readArgument tree.joined = naming.readArgument tree.core := by
  have hflag (hkind : tree.kind? = some .flag) : tree.joined = tree.core := by
    obtain ⟨children, rfl⟩ := exists_children hkind
    exact joined_eq_core rfl children
  have hcases (hkind : tree.kind? = some .jumpTableBlock) :
      tree.joined.childNodes.mapM naming.readCase = tree.core.childNodes.mapM naming.readCase := by
    obtain ⟨children, rfl⟩ := exists_children hkind
    rw [childNodes_joined rfl, childNodes_core, mapM_readCase_joined]
  simp only [readArgument, spanOf_joined, kind?_joined, kind?_core, readAll_children_joined,
    read_joined]
  split
  · rename_i hkind
    rw [hflag hkind]
  · rfl
  · rename_i hkind
    rw [hcases hkind]
  · rfl

end Naming

namespace Definition

/-- A definition whose value is joined. -/
def joined (definition : Definition) : Definition :=
  { definition with value := definition.value.map SyntaxTree.joined }

theorem find?_joined (definitions : List Definition) (name : Bytes) (isRegister : Bool) :
    find? (definitions.map joined) name isRegister =
      (find? definitions name isRegister).map joined := by
  simp only [find?, List.find?_map]
  rfl

theorem bare_joined_value (definition : Definition) :
    definition.bare.joined.value = definition.value.map SyntaxTree.joined := by
  simp only [joined, bare, Option.map_map]
  congr 1
  funext tree
  exact joined_core tree

theorem aliasToken?_joined (definition : Definition) :
    definition.bare.joined.aliasToken? = definition.bare.aliasToken? := by
  rw [aliasToken?_bare, aliasToken?, bare_joined_value, aliasToken?]
  cases definition.value with
  | none => rfl
  | some tree =>
      simp only [Option.map_some, Option.bind_some, kind?_joined]
      split
      · rename_i hkind
        obtain ⟨children, rfl⟩ := exists_children (beq_iff_eq.mp hkind)
        rw [joined_eq_core rfl, firstSignificant?_core]
      · rfl

section

variable (definitions : List Definition) (scope : Scope)

theorem naming_joined (origin : Location)
    {value other : Definition → Span → StateM Evaluation (Option Value)}
    (h : ∀ definition : Definition, other definition.bare.joined = value definition.bare) :
    naming ((definitions.map bare).map joined) scope origin other =
      naming (definitions.map bare) scope origin value := by
  have hmeaning : ∀ name span,
      (naming ((definitions.map bare).map joined) scope origin other).meaning name span =
        (naming (definitions.map bare) scope origin value).meaning name span := by
    intro name span
    simp only [naming, find?_joined, find?_bare]
    cases find? definitions name false with
    | none => rfl
    | some definition => simp only [Option.map_some, h]
  simp only [naming, Naming.mk.injEq, true_and, and_true] at hmeaning ⊢
  funext name span
  exact hmeaning name span

theorem evaluateTree_joined (naming : Naming Evaluation) (tree : SyntaxTree) :
    evaluateTree naming tree.joined = evaluateTree naming tree.core := by
  rw [evaluateTree, evaluateTree, Naming.read_joined]

theorem valueOf_joined (depth : Nat) (path : List Bytes) (definition : Definition) :
    valueOf ((definitions.map bare).map joined) scope depth path definition.bare.joined =
      valueOf (definitions.map bare) scope depth path definition.bare := by
  induction depth generalizing path definition with
  | zero => rfl
  | succ depth ih =>
      funext use
      have hnaming := naming_joined definitions scope definition.bare.origin
        fun target => ih (definition.name :: path) target
      have hvalue : definition.bare.value = definition.value.map core := rfl
      simp only [valueOf, bare_joined_value, hvalue]
      simp only [joined, bare] at hnaming ⊢
      rw [hnaming]
      cases definition.value with
      | none => rfl
      | some tree =>
          simp only [Option.map_some, evaluateTree_joined]
          rfl

theorem registerOf_joined (depth : Nat) (path : List Bytes) (definition : Definition) :
    registerOf ((definitions.map bare).map joined) depth path definition.bare.joined =
      registerOf (definitions.map bare) depth path definition.bare := by
  induction depth generalizing path definition with
  | zero => rfl
  | succ depth ih =>
      funext use
      have hvalue : definition.bare.value = definition.value.map core := rfl
      simp only [registerOf, aliasToken?_joined, find?_joined, find?_bare,
        bare_joined_value, hvalue]
      cases definition.bare.aliasToken? with
      | none =>
          cases definition.value with
          | none => rfl
          | some tree =>
              simp only [Option.map_some, span_joined, span_core]
              rfl
      | some token =>
          simp only
          cases find? definitions token.text true with
          | none => cases Register.parse? token.text <;> rfl
          | some target =>
              simp only [Option.map_some, ih]
              rfl

end

end Definition

/-- A name in front of an instruction is no register. -/
theorem registerTokens_joined (tree : SyntaxTree) :
    Routine.registerTokens tree.joined = Routine.registerTokens tree.core := by
  cases tree with
  | token leaf => simp only [joined, core]
  | node kind children =>
      refine filter_tokens_joined (fun _ => rfl) (fun token h hnewline => ?_)
        (fun _ token h hname => ?_) children
      · simp [hnewline] at h
      · simp [hname] at h

namespace Declarations

/-- Declarations whose definitions have joined values. -/
def joined (found : Declarations) : Declarations :=
  { found with definitions := found.definitions.map Definition.joined }

theorem joined_report (diagnostic : Diagnostic) (found : Declarations) :
    found.joined.report diagnostic = (found.report diagnostic).joined := rfl

theorem declare_joined (found : Declarations) (symbol : Symbol) :
    found.joined.declare symbol = (found.declare symbol).joined := by
  simp only [declare, joined]
  cases found.scope.declare symbol with
  | mk scope earlier => cases earlier <;> rfl

theorem declareTree_joined (found : Declarations) (symbolKind : SymbolKind)
    (parameterCount : Nat) (origin : Location) {kind : SyntaxKind}
    (hkind : kind ≠ .instruction) (children : List SyntaxTree) :
    found.joined.declareTree symbolKind parameterCount origin
      (SyntaxTree.node kind children).joined =
      (found.declareTree symbolKind parameterCount origin
        (SyntaxTree.node kind children).core).joined := by
  rw [declareTree, Naming.firstToken?_joined hkind (by decide), declareTree, firstToken?_core]
  cases (SyntaxTree.node kind children).firstToken? .identifier with
  | none => rfl
  | some name => exact declare_joined found _

theorem declareLabels_joined (found : Declarations) (origin : Location) {kind : SyntaxKind}
    (hkind : kind.isOneToken = false) (children : List SyntaxTree) :
    found.joined.declareLabels origin (SyntaxTree.node kind children).joined =
      (found.declareLabels origin (SyntaxTree.node kind children).core).joined := by
  have hlabels : ∀ label ∈ children.filter (·.kind? == some .label),
      label.kind? = some .label := fun label hlabel => by
    simpa using (List.mem_filter.mp hlabel).2
  rw [declareLabels, filter_kind_joined hkind, declareLabels, children_core, filter_kind_coreAll,
    SyntaxTree.children]
  generalize children.filter (·.kind? == some .label) = labels at hlabels
  induction labels generalizing found with
  | nil => rfl
  | cons label rest ih =>
      obtain ⟨parts, rfl⟩ := exists_children (hlabels label (List.mem_cons_self ..))
      rw [List.map_cons, List.map_cons, List.foldl_cons, List.foldl_cons,
        declareTree_joined found .label 0 origin (by decide)]
      exact ih _ fun other hother => hlabels other (List.mem_cons_of_mem _ hother)

theorem parameterCount_joined {kind : SyntaxKind} (hkind : kind.isOneToken = false)
    (children : List SyntaxTree) :
    parameterCount (SyntaxTree.node kind children).joined =
      parameterCount (SyntaxTree.node kind children).core := by
  rw [parameterCount, firstChild?_joined hkind, parameterCount, firstChild?_core]
  cases (SyntaxTree.node kind children).firstChild? .parameterList with
  | none => rfl
  | some list =>
      simp only [Option.map_some, List.countP_eq_length_filter]
      exact congrArg List.length (registerTokens_joined list)

theorem recordDefinition_joined (found : Declarations) (origin : Location)
    (children : List SyntaxTree) :
    found.joined.recordDefinition origin (SyntaxTree.node .definition children).joined =
      (found.recordDefinition origin (SyntaxTree.node .definition children).core).joined := by
  have htokens : (SyntaxTree.node .definition children).joined.tokens =
      (SyntaxTree.node .definition children).core.tokens := tokens_joined_definition children
  have hvalue : (SyntaxTree.node .definition children).joined.childNodes.head? =
      (SyntaxTree.node .definition children).core.childNodes.head?.map SyntaxTree.joined := by
    rw [childNodes_joined rfl, childNodes_core, List.head?_map, List.head?_map, Option.map_map]
    congr 1
    funext tree
    exact (joined_core tree).symm
  have hearlier (name : Bytes) : found.joined.definitions.find? (·.name == name) =
      (found.definitions.find? (·.name == name)).map Definition.joined := by
    simp only [joined, List.find?_map]
    rfl
  simp only [recordDefinition, htokens, hvalue]
  cases (SyntaxTree.node .definition children).core.tokens with
  | nil => rfl
  | cons word behind =>
      cases behind with
      | nil => rfl
      | cons name rest =>
          simp only [hearlier, apply_ite joined, joined_report]
          cases found.definitions.find? (·.name == name.text) with
          | none =>
              simp only [Option.map_none, joined, List.map_append]
              rfl
          | some earlier => rfl

theorem addItem_joined (found : Declarations) (origin : Location) (tree : SyntaxTree) :
    found.joined.addItem origin tree.joined = (found.addItem origin tree.core).joined := by
  simp only [addItem, kind?_joined, kind?_core]
  split
  · rename_i hkind
    obtain ⟨children, rfl⟩ := exists_children hkind
    exact declareTree_joined found .label 0 origin (by decide) children
  · rename_i hkind
    obtain ⟨children, rfl⟩ := exists_children hkind
    rw [parameterCount_joined rfl, declareTree_joined found .function _ origin (by decide),
      declareLabels_joined _ origin rfl]
  · rename_i hkind
    obtain ⟨children, rfl⟩ := exists_children hkind
    rw [declareTree_joined found .subroutine _ origin (by decide),
      declareLabels_joined _ origin rfl]
  · rename_i hkind
    obtain ⟨children, rfl⟩ := exists_children hkind
    exact recordDefinition_joined found origin children
  · rfl

theorem foldl_addItem_joined {keep : Bool} (found : Declarations) (items : List SyntaxTree) :
    (joinedAll keep items).foldl (fun found item => found.addItem .origin item) found.joined =
      ((coreAll items).foldl (fun found item => found.addItem .origin item) found).joined := by
  induction items generalizing found with
  | nil => simp [coreAll]
  | cons item rest ih =>
      cases item with
      | token leaf =>
          have hitem (found : Declarations) (leaf : Token) :
              found.addItem .origin (.token leaf) = found := rfl
          simp only [joinedAll, coreAll]
          split
          · rename_i hleaf
            rw [if_pos ((Bool.and_eq_true _ _).mp hleaf).1, List.foldl_cons, List.foldl_cons, hitem,
              hitem, ih]
          · split
            · rw [List.foldl_cons, hitem, ih]
            · exact ih found
      | node kind children =>
          rw [joinedAll_node_cons, coreAll_node_cons, List.foldl_cons, List.foldl_cons,
            addItem_joined, ih]

theorem reportClashes_joined (found : Declarations) :
    found.joined.reportClashes = found.reportClashes.joined := by
  have hdefinitions : found.joined.definitions = found.definitions.map Definition.joined := rfl
  have hscope : found.joined.scope = found.scope := rfl
  simp only [reportClashes, hdefinitions, hscope, List.foldl_map]
  refine List.foldl_hom joined fun state definition => ?_
  have hname : definition.joined.name = definition.name := rfl
  rw [hname]
  cases found.scope.findSymbol? definition.name with
  | none => rfl
  | some symbol =>
      simp only [apply_ite joined, ← joined_report]
      rfl

theorem define_joined (found : Declarations) (scope : Scope) (definition : Definition) :
    found.bare.joined.define scope definition.bare.joined =
      found.bare.define scope definition.bare := by
  have hlength : found.bare.joined.definitions.length = found.bare.definitions.length :=
    List.length_map ..
  simp only [define, hlength]
  simp only [joined, bare, Definition.registerOf_joined, Definition.valueOf_joined]
  rfl

theorem foldlM_define_joined (found : Declarations) (definitions : List Definition)
    (scope : Scope) :
    ((definitions.map Definition.bare).map Definition.joined).foldlM
      found.bare.joined.define scope =
      (definitions.map Definition.bare).foldlM found.bare.define scope := by
  induction definitions generalizing scope with
  | nil => rw [List.map_nil, List.map_nil, List.foldlM_nil, List.foldlM_nil]
  | cons definition rest ih =>
      rw [List.map_cons, List.map_cons, List.foldlM_cons, List.foldlM_cons, define_joined]
      exact congrArg (found.bare.define scope definition.bare >>= ·) (funext ih)

theorem defineAll_joined (found : Declarations) :
    found.bare.joined.defineAll = found.bare.defineAll := by
  have hdefinitions : found.bare.joined.definitions =
      (found.definitions.map Definition.bare).map Definition.joined := rfl
  have hbare : found.bare.definitions = found.definitions.map Definition.bare := rfl
  have hscope : found.bare.joined.scope = found.bare.scope := rfl
  have hdiagnostics : found.bare.joined.diagnostics = found.bare.diagnostics := rfl
  simp only [defineAll, hdefinitions, hbare, hscope, hdiagnostics, foldlM_define_joined]

/-- What a text declares can be told from its joined items. -/
theorem collect_joined (placed : PlacedTree) :
    ((collect [placed]).1.bare, Diagnostics.bare (collect [placed]).2) =
      (ofItems (joinedAll false placed.tree.children)).reportClashes.defineAll := by
  have hitems : ofItems (coreAll placed.tree.children) = ([placed].foldl addTree .empty).bare := by
    rw [addTrees_bare, List.flatMap_singleton]
  have hjoined : ofItems (joinedAll false placed.tree.children) =
      (ofItems (coreAll placed.tree.children)).joined :=
    foldl_addItem_joined .empty placed.tree.children
  rw [hjoined, hitems, reportClashes_joined, reportClashes_bare, defineAll_joined,
    ← reportClashes_bare, ← hitems, collect_bare, List.flatMap_singleton]

end Declarations

namespace Routine

variable (scope : Scope) (aliases : Aliases)

theorem nameOf_joined {kind : SyntaxKind} (hkind : kind ≠ .instruction)
    (children : List SyntaxTree) :
    nameOf (SyntaxTree.node kind children).joined =
      nameOf (SyntaxTree.node kind children).core := by
  rw [nameOf, Naming.firstToken?_joined hkind (by decide), nameOf]

theorem readInstruction_joined (children : List SyntaxTree) :
    readInstruction scope aliases (SyntaxTree.node .instruction children).joined =
      readInstruction scope aliases (SyntaxTree.node .instruction children).core := by
  have hmnemonic : ((SyntaxTree.node .instruction children).joined.firstSignificant?.map
      Token.text).getD [] = ((SyntaxTree.node .instruction children).core.firstSignificant?.map
        Token.text).getD [] :=
    (firstText_joined_instruction children).trans (firstText_core _).symm
  simp only [readInstruction, span_joined, span_core, hmnemonic]
  rw [firstChild?_joined rfl, firstChild?_core]
  cases hlist : (SyntaxTree.node .instruction children).firstChild? .argumentList with
  | none => rfl
  | some list =>
      have hkind : list.kind? = some .argumentList := by
        rw [firstChild?] at hlist
        simpa using List.find?_some hlist
      obtain ⟨parts, rfl⟩ := exists_children hkind
      have hread : (naming scope aliases).readArgument ∘ joined =
          (naming scope aliases).readArgument ∘ core :=
        funext fun tree => Naming.readArgument_joined _ tree
      simp only [Option.map_some, childNodes_core, List.mapM_map]
      rw [childNodes_joined rfl, List.mapM_map, hread]

theorem readBody_joined {keep : Bool} (trees : List SyntaxTree) :
    readBody scope aliases (joinedAll keep trees) = readBody scope aliases (coreAll trees) := by
  induction trees with
  | nil => simp [coreAll]
  | cons tree rest ih =>
      cases tree with
      | token leaf =>
          have htoken (leaf : Token) (rest : List SyntaxTree) :
              readBody scope aliases (.token leaf :: rest) = readBody scope aliases rest := rfl
          simp only [joinedAll, coreAll]
          split
          · rename_i hleaf
            rw [if_pos ((Bool.and_eq_true _ _).mp hleaf).1, htoken, htoken, ih]
          · split
            · rw [htoken, ih]
            · exact ih
      | node kind children =>
          rw [joinedAll_node_cons, coreAll_node_cons]
          simp only [readBody, kind?_joined, kind?_core, span_joined, span_core, ih]
          split
          · rename_i hkind
            cases hkind
            rw [nameOf_joined (by decide)]
          · rename_i hkind
            cases hkind
            rw [readInstruction_joined]
          · rfl

theorem preserve_joined (preserved : List Register) (range : SyntaxTree) :
    preserve scope aliases preserved range.joined =
      preserve scope aliases preserved range.core := by
  simp only [preserve, registerTokens_joined, span_joined, span_core]

theorem readProcedure_joined (routineKind : RoutineKind) {kind : SyntaxKind}
    (hkind : kind.isReadByParts = true) (children : List SyntaxTree) :
    readProcedure scope routineKind (SyntaxTree.node kind children).joined =
      readProcedure scope routineKind (SyntaxTree.node kind children).core := by
  obtain ⟨hone, -, hinstruction⟩ := SyntaxKind.isReadByParts_iff.mp hkind
  have hinstruction : kind ≠ .instruction := by simpa using hinstruction
  have hparameters : (((SyntaxTree.node kind children).joined.firstChild? .parameterList).map
      registerTokens).getD [] = (((SyntaxTree.node kind children).core.firstChild?
        .parameterList).map registerTokens).getD [] := by
    rw [firstChild?_joined hone, firstChild?_core]
    cases (SyntaxTree.node kind children).firstChild? .parameterList with
    | none => rfl
    | some list => exact registerTokens_joined list
  have hranges (aliases : Aliases) : ((((SyntaxTree.node kind children).joined.firstChild?
      .preservedRangeList).map SyntaxTree.childNodes).getD []).foldlM (preserve scope aliases) [] =
        ((((SyntaxTree.node kind children).core.firstChild? .preservedRangeList).map
          SyntaxTree.childNodes).getD []).foldlM (preserve scope aliases) [] := by
    rw [firstChild?_joined hone, firstChild?_core]
    cases hlist : (SyntaxTree.node kind children).firstChild? .preservedRangeList with
    | none => rfl
    | some list =>
        have hlistKind : list.kind? = some .preservedRangeList := by
          rw [firstChild?] at hlist
          simpa using List.find?_some hlist
        obtain ⟨parts, rfl⟩ := exists_children hlistKind
        have hpreserve : (fun preserved (range : SyntaxTree) =>
            preserve scope aliases preserved range.joined) = fun preserved range =>
              preserve scope aliases preserved range.core :=
          funext fun preserved => funext fun range => preserve_joined scope aliases preserved range
        simp only [Option.map_some, Option.getD_some, childNodes_core]
        rw [childNodes_joined rfl, List.foldlM_map, List.foldlM_map, hpreserve]
  have hbody (aliases : Aliases) : readBody scope aliases
      (SyntaxTree.node kind children).joined.children =
        readBody scope aliases (SyntaxTree.node kind children).core.children := by
    rw [joined_of_parts hkind, core_node]
    exact readBody_joined scope aliases children
  simp only [readProcedure, nameOf_joined hinstruction, hparameters, hranges, hbody, span_joined,
    span_core]

/-- The items of a text are resolved alike without layout. -/
theorem readItems_joined {keep : Bool} (current : Option Routine) (trees : List SyntaxTree) :
    readItems scope current (joinedAll keep trees) = readItems scope current (coreAll trees) := by
  induction trees generalizing current with
  | nil => simp [coreAll]
  | cons tree rest ih =>
      cases tree with
      | token leaf =>
          have htoken (leaf : Token) (rest : List SyntaxTree) :
              readItems scope current (.token leaf :: rest) = readItems scope current rest := rfl
          simp only [joinedAll, coreAll]
          split
          · rename_i hleaf
            rw [if_pos ((Bool.and_eq_true _ _).mp hleaf).1, htoken, htoken, ih]
          · split
            · rw [htoken, ih]
            · exact ih current
      | node kind children =>
          rw [joinedAll_node_cons, coreAll_node_cons]
          simp only [readItems, kind?_joined, kind?_core, span_joined, span_core, ih]
          split
          · rename_i hkind
            cases hkind
            simp only [openScript, nameOf_joined (by decide : SyntaxKind.label ≠ .instruction),
              span_joined, span_core]
          · rename_i hkind
            cases hkind
            rw [readInstruction_joined]
          · rename_i hkind
            cases hkind
            rw [readProcedure_joined scope .function rfl]
          · rename_i hkind
            cases hkind
            rw [readProcedure_joined scope .subroutine rfl]
          · rfl
          · rfl

end Routine

end NovelAsm
