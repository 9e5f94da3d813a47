import NovelAsm.Proofs.Reports.Names
import NovelAsm.Resolve.Definitions

/-!
What is said of the declarations of a file. They point into the file: each span is moved to the
place of its segment when it is read from the tree.
-/

namespace NovelAsm

variable {allowed : Span → Prop}

/-- The spans of a placed tree are allowed in the file. -/
def PlacedTree.Within (allowed : Span → Prop) (placed : PlacedTree) : Prop :=
  placed.tree.Within fun span => allowed (span.rebase placed.origin)

/-- The spans of a definition are allowed in the file. -/
structure Definition.Within (allowed : Span → Prop) (definition : Definition) : Prop where
  span : allowed definition.span
  value : ∀ tree ∈ definition.value,
    tree.Within fun span => allowed (span.rebase definition.origin)

namespace Definition

/-- An evaluation that says only what a stage before the linker may say. -/
def AllEarly (allowed : Span → Prop) (state : Evaluation) : Prop :=
  state.diagnostics.AllEarly allowed

theorem report_early {diagnostic : Diagnostic} (h : diagnostic.Early allowed) (state : Evaluation)
    (hstate : AllEarly allowed state) : AllEarly allowed (state.report diagnostic) :=
  Diagnostics.AllEarly.append hstate (Diagnostics.allEarly_singleton h)

theorem complain_early (problem : NameProblem) {span : Span} (h : allowed span) :
    Gives (AllEarly allowed) (Evaluation.complain problem span) fun _ => True :=
  Gives.modify (report_early (problem.early h))

theorem complainSelf_early {definition : Definition} (hdefinition : definition.Within allowed)
    {use : Span} (h : allowed use) :
    Gives (AllEarly allowed) (Evaluation.complainSelf definition use) fun _ => True :=
  Gives.modify (report_early (((NameProblem.selfReference definition.name).early h).withNote
    hdefinition.span _))

theorem reporting_early {α : Type} {step : Reporting α} {P : α → Prop} (h : Says allowed step P) :
    Gives (AllEarly allowed) (Evaluation.reporting step) P :=
  ⟨fun state hstate => h.gives state.diagnostics hstate⟩

theorem mem_of_find? {definitions : List Definition} {name : Bytes} {isRegister : Bool}
    {definition : Definition} (h : find? definitions name isRegister = some definition) :
    definition ∈ definitions := List.mem_of_find?_eq_some h

section Evaluations

variable {definitions : List Definition}
  (hdefinitions : ∀ definition ∈ definitions, definition.Within allowed)

include hdefinitions

omit hdefinitions in
theorem naming_early (scope : Scope) (origin : Location)
    {valueOf : Definition → Span → StateM Evaluation (Option Value)}
    (h : ∀ definition ∈ definitions, ∀ span, allowed span →
      Gives (AllEarly allowed) (valueOf definition span) fun _ => True) :
    (naming definitions scope origin valueOf).Maintaining allowed (AllEarly allowed) where
  report _ hdiagnostic := report_early hdiagnostic
  meaning name span hspan := by
    simp only [naming]
    split
    · rename_i definition hfound
      refine (h definition (mem_of_find? hfound) span hspan).bind fun value _ => ?_
      split <;> exact .pure trivial
    · split <;> exact .pure trivial
  register? name span hspan := (complain_early _ hspan).map fun _ _ => trivial

omit hdefinitions in
theorem evaluateTree_early {naming : Naming Evaluation}
    (h : naming.Maintaining allowed (AllEarly allowed)) {tree : SyntaxTree}
    (htree : naming.ReadsWithin allowed tree) :
    Gives (AllEarly allowed) (evaluateTree naming tree) fun _ => True := by
  refine (h.read htree).bind fun expr hexpr => ?_
  split
  · exact .pure trivial
  · exact reporting_early (Expr.evaluate_early hexpr)

omit hdefinitions in
/-- A question to the state. -/
theorem behind_get {α : Type} {P : α → Prop} {next : Evaluation → StateM Evaluation α}
    (h : ∀ state, Gives (AllEarly allowed) (next state) P) :
    Gives (AllEarly allowed) (get >>= next) P :=
  ⟨fun state hstate => (h state).gives state hstate⟩

theorem valueOf_early (scope : Scope) (depth : Nat) (path : List Bytes) {definition : Definition}
    (h : definition.Within allowed) {use : Span} (huse : allowed use) :
    Gives (AllEarly allowed) (valueOf definitions scope depth path definition use)
      fun _ => True := by
  induction depth generalizing path definition use with
  | zero => exact .pure trivial
  | succ depth ih =>
      have hsettle (value : Option Value) : Gives (AllEarly allowed) (do
          modify fun state : Evaluation =>
            { state with values := state.values.insertNew definition.name value }
          return value) fun _ => True :=
        Gives.bind (P := fun _ => True) ⟨fun _ hstate => ⟨trivial, hstate⟩⟩ fun _ _ => .pure trivial
      simp only [valueOf]
      refine behind_get fun state => ?_
      split
      · exact .pure trivial
      · split
        · exact (complainSelf_early h huse).map fun _ _ => trivial
        · split
          · rename_i tree hvalue
            exact (evaluateTree_early (naming_early scope definition.origin
              fun other hother span hspan => ih _ (hdefinitions other hother) hspan)
                (h.value tree hvalue)).bind fun value _ => hsettle value
          · exact hsettle none

theorem registerOf_early (depth : Nat) (path : List Bytes) {definition : Definition}
    (h : definition.Within allowed) {use : Span} (huse : allowed use) :
    Gives (AllEarly allowed) (registerOf definitions depth path definition use)
      fun _ => True := by
  induction depth generalizing path definition use with
  | zero => exact .pure trivial
  | succ depth ih =>
      have hsettle (register : Option Register) : Gives (AllEarly allowed) (do
          modify fun state : Evaluation =>
            { state with registers := state.registers.insertNew definition.name register }
          return register) fun _ => True :=
        Gives.bind (P := fun _ => True) ⟨fun _ hstate => ⟨trivial, hstate⟩⟩ fun _ _ => .pure trivial
      have htoken {token : Token} (hfound : definition.aliasToken? = some token) :
          allowed (token.span.rebase definition.origin) := by
        obtain ⟨tree, htree, hfound⟩ := Option.bind_eq_some_iff.mp hfound
        simp only [Option.ite_none_right_eq_some] at hfound
        exact SyntaxTree.Within.firstSignificant (h.value tree htree) hfound.2
      simp only [registerOf]
      refine behind_get fun state => ?_
      split
      · exact .pure trivial
      · split
        · exact (complainSelf_early h huse).map fun _ _ => trivial
        · split
          · rename_i token _ hfound
            split
            · rename_i target htarget
              exact (ih _ (hdefinitions target (mem_of_find? htarget)) (htoken hfound)).bind
                fun register _ => hsettle register
            · exact hsettle _
            · exact (complain_early _ (htoken hfound)).bind fun _ _ => hsettle none
          · rename_i tree _ hvalue
            exact (complain_early _ (h.value tree hvalue).span).bind fun _ _ => hsettle none
          · exact hsettle none

end Evaluations

end Definition

namespace Declarations

/-- Declarations that say only what a stage before the linker may say, with the spans of what was
declared. -/
structure AllWithin (allowed : Span → Prop) (found : Declarations) : Prop where
  symbols : ∀ symbol ∈ found.scope.symbols, allowed symbol.span
  definitions : ∀ definition ∈ found.definitions, definition.Within allowed
  diagnostics : found.diagnostics.AllEarly allowed

theorem AllWithin.report {found : Declarations} (h : found.AllWithin allowed)
    {diagnostic : Diagnostic}
    (hdiagnostic : diagnostic.Early allowed) : (found.report diagnostic).AllWithin allowed :=
  ⟨h.symbols, h.definitions, h.diagnostics.append (Diagnostics.allEarly_singleton hdiagnostic)⟩

theorem foldl_allWithin {α : Type} {step : Declarations → α → Declarations} {items : List α}
    (h : ∀ item ∈ items, ∀ found, found.AllWithin allowed → (step found item).AllWithin allowed)
    {found : Declarations} (hfound : found.AllWithin allowed) :
    (items.foldl step found).AllWithin allowed := by
  induction items generalizing found with
  | nil => exact hfound
  | cons item rest ih =>
      obtain ⟨hitem, hrest⟩ := List.forall_mem_cons.mp h
      exact ih hrest (hitem found hfound)

theorem AllWithin.declareTree {found : Declarations} (h : found.AllWithin allowed)
    (kind : SymbolKind) (count : Nat) {origin : Location} {tree : SyntaxTree}
    (htree : PlacedTree.Within allowed ⟨tree, origin⟩) :
    (found.declareTree kind count origin tree).AllWithin allowed := by
  simp only [Declarations.declareTree]
  split
  · rename_i name hname
    have hspan : allowed (name.span.rebase origin) := SyntaxTree.Within.firstToken htree hname
    simp only [declare, Scope.declare]
    cases hearlier : found.scope.findSymbol? name.text with
    | none =>
        exact ⟨List.forall_mem_append.mpr ⟨h.symbols, List.forall_mem_singleton.mpr hspan⟩,
          h.definitions, h.diagnostics⟩
    | some earlier =>
        exact h.report (NameProblem.duplicate_early _ hspan
          (h.symbols earlier (List.mem_of_find?_eq_some hearlier)))
  · exact h

theorem AllWithin.recordDefinition {found : Declarations} (h : found.AllWithin allowed)
    {origin : Location} {tree : SyntaxTree} (htree : PlacedTree.Within allowed ⟨tree, origin⟩) :
    (found.recordDefinition origin tree).AllWithin allowed := by
  simp only [Declarations.recordDefinition]
  split
  · rename_i first name more htokens
    have hspan : allowed (name.span.rebase origin) :=
      SyntaxTree.Within.token htree (by simp [htokens])
    split
    · exact h
    · split
      · exact h.report (NameProblem.early _ hspan)
      · split
        · rename_i earlier hearlier
          exact h.report (NameProblem.duplicate_early _ hspan
            (h.definitions earlier (List.mem_of_find?_eq_some hearlier)).span)
        · refine ⟨h.symbols, List.forall_mem_append.mpr ⟨h.definitions,
            List.forall_mem_singleton.mpr ⟨hspan, fun value hvalue => ?_⟩⟩, h.diagnostics⟩
          exact SyntaxTree.Within.childNode htree (List.mem_of_mem_head? hvalue)
  · exact h

theorem AllWithin.addItem {found : Declarations} (h : found.AllWithin allowed) {origin : Location}
    {tree : SyntaxTree} (htree : PlacedTree.Within allowed ⟨tree, origin⟩) :
    (found.addItem origin tree).AllWithin allowed := by
  have hlabels {found : Declarations} (h : found.AllWithin allowed) :
      (found.declareLabels origin tree).AllWithin allowed := by
    refine foldl_allWithin (fun label hlabel _ hfound => ?_) h
    exact hfound.declareTree .label 0
      (SyntaxTree.Within.child htree (List.mem_of_mem_filter hlabel))
  simp only [Declarations.addItem]
  split
  · exact h.declareTree _ _ htree
  · exact hlabels (h.declareTree _ _ htree)
  · exact hlabels (h.declareTree _ _ htree)
  · exact h.recordDefinition htree
  · exact h

theorem AllWithin.reportClashes {found : Declarations} (h : found.AllWithin allowed) :
    found.reportClashes.AllWithin allowed := by
  refine foldl_allWithin (fun definition hdefinition state hstate => ?_) h
  split
  · rename_i symbol hsymbol
    split
    · exact hstate
    · exact hstate.report (NameProblem.duplicate_early _ (h.definitions definition hdefinition).span
        (h.symbols symbol (List.mem_of_find?_eq_some hsymbol)))
  · exact hstate

theorem AllWithin.define {found : Declarations} (h : found.AllWithin allowed) (scope : Scope)
    {definition : Definition} (hdefinition : definition.Within allowed) :
    Gives (Definition.AllEarly allowed) (found.define scope definition) fun _ => True := by
  simp only [Declarations.define]
  split
  · refine (Definition.registerOf_early h.definitions _ _ hdefinition hdefinition.span).bind
      fun register _ => ?_
    split <;> exact .pure trivial
  · refine (Definition.valueOf_early h.definitions _ _ _ hdefinition hdefinition.span).bind
      fun value _ => ?_
    split <;> exact .pure trivial

/-- What is said of the declarations of a file. -/
theorem collect_early {trees : List PlacedTree} (h : ∀ placed ∈ trees, placed.Within allowed) :
    (collect trees).2.AllEarly allowed := by
  have hempty : Declarations.empty.AllWithin allowed := ⟨nofun, nofun, nofun⟩
  have hfound : (trees.foldl addTree .empty).AllWithin allowed := by
    refine foldl_allWithin (fun placed hplaced _ hfound => ?_) hempty
    refine foldl_allWithin (fun item hitem _ hfound => ?_) hfound
    exact hfound.addItem (SyntaxTree.Within.child (h placed hplaced) hitem)
  have hclashes := hfound.reportClashes
  refine hclashes.diagnostics.append ?_
  exact (Gives.foldlM _ (fun scope _ definition hdefinition =>
    hclashes.define scope (hclashes.definitions definition hdefinition)) trivial).keeps .empty nofun

end Declarations

end NovelAsm
