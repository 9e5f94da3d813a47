import NovelAsm.Proofs.NameMap
import NovelAsm.Proofs.Resolve.Rules

/-!
The walk that evaluates definitions. It goes from a definition to those that it mentions, and
enters what it finds into a table, so nothing is found twice. A definition that is met again while
it waits for others lies on a circle, where nothing has a value; so what the walk answers and what
it enters is the least solution of the rules, wherever it began (`Definition.valueOf_gives`).

Those that wait are different definitions, each mentioned by the one that waited before it. So no
more of them wait than there are, and the walk never goes deeper.
-/

namespace NovelAsm

namespace Definition

open NameRule (Refers)

/-- The names that wait for another one, the last one first: each asks for the one in front of it.
There are fewer of them than definitions and steps that are left together. -/
structure Waiting (definitions : List Definition) (names : Bytes → List Bytes) (path : List Bytes)
    (name : Bytes) (depth : Nat) : Prop where
  chain : (name :: path).IsChain fun later earlier => Refers names earlier later
  nodup : path.Nodup
  defined : path ⊆ definitions.map Definition.name
  enough : definitions.length < depth + path.length

namespace Waiting

variable {definitions : List Definition} {names : Bytes → List Bytes} {path : List Bytes}
  {name : Bytes} {depth : Nat}

theorem start (name : Bytes) (more : Nat) :
    Waiting definitions names [] name (definitions.length + 1 + more) where
  chain := .singleton name
  nodup := .nil
  defined := List.nil_subset _
  enough := by rw [List.length_nil]; omega

/-- The walk does not get to its limit. -/
theorem pos (h : Waiting definitions names path name depth) : 0 < depth := by
  have hlength := (List.subperm_of_subset h.nodup h.defined).length_le
  have henough := h.enough
  rw [List.length_map] at hlength
  omega

theorem step (h : Waiting definitions names path name (depth + 1)) (hnew : name ∉ path)
    (hdefined : name ∈ definitions.map Definition.name) {other : Bytes}
    (hother : Refers names name other) :
    Waiting definitions names (name :: path) other depth where
  chain := .cons_cons hother h.chain
  nodup := List.nodup_cons.mpr ⟨hnew, h.nodup⟩
  defined := List.cons_subset.mpr ⟨hdefined, h.defined⟩
  enough := by
    have henough := h.enough
    rw [List.length_cons]
    omega

/-- A name that waits for itself lies on a circle. -/
theorem circle (h : Waiting definitions names path name depth) (hmem : name ∈ path) :
    Relation.TransGen (Refers names) name name := by
  have hpairs : (name :: path).Pairwise fun later earlier =>
      Relation.TransGen (Refers names) earlier later :=
    List.isChain_iff_pairwise.mp (h.chain.imp fun _ _ => .single)
  exact List.rel_of_pairwise_cons hpairs hmem

end Waiting

/-! ## A step of the walk -/

/-- A table of outcomes, as it is read and entered. -/
structure Ledger (α : Type) where
  entries : Evaluation → NameMap (Option α)
  enter : Bytes → Option α → Evaluation → Evaluation

namespace Ledger

def values : Ledger Value where
  entries := Evaluation.values
  enter name outcome state := { state with values := state.values.insertNew name outcome }

def registers : Ledger Register where
  entries := Evaluation.registers
  enter name outcome state := { state with registers := state.registers.insertNew name outcome }

variable {α : Type} (ledger : Ledger α)

/-- The outcome of a definition that is used at a span: the one that was entered, or what is found,
unless the definition waits for itself. -/
def settle (path : List Bytes) (definition : Definition) (use : Span)
    (find : StateM Evaluation (Option α)) : StateM Evaluation (Option α) := do
  match (ledger.entries (← get)).find? definition.name with
  | some settled => return settled
  | none =>
      if path.contains definition.name then
        Evaluation.complainSelf definition use
        return none
      let outcome ← find
      modify (ledger.enter definition.name outcome)
      return outcome

variable {ledger} {path : List Bytes} {definition : Definition} {use : Span}
  {find : StateM Evaluation (Option α)}

theorem settle_run (state : Evaluation) : ledger.settle path definition use find state =
    match (ledger.entries state).find? definition.name with
    | some settled => (settled, state)
    | none =>
        if path.contains definition.name then
          (none, (Evaluation.complainSelf definition use state).2)
        else
          let found := find state
          (found.1, ledger.enter definition.name found.1 found.2) := by
  have hstep : ledger.settle path definition use find state =
      (match (ledger.entries state).find? definition.name with
      | some settled => (Pure.pure settled : StateM Evaluation (Option α))
      | none =>
          if path.contains definition.name then do
            Evaluation.complainSelf definition use
            return none
          else do
            let outcome ← find
            modify (ledger.enter definition.name outcome)
            return outcome) state := rfl
  rw [hstep]
  cases (ledger.entries state).find? definition.name with
  | some settled => rfl
  | none => simp only; split <;> rfl

/-- One outcome is answered and entered, if it is the one that was entered before, the one that is
found, and nothing on a circle. -/
theorem settle_gives {I : Evaluation → Prop} {outcome : Option α}
    (hsaid : ∀ (state : Evaluation) (said : Diagnostics), I state →
      I { state with diagnostics := said })
    (hknown : ∀ state settled, I state →
      (ledger.entries state).find? definition.name = some settled → settled = outcome)
    (henter : ∀ state, I state → I (ledger.enter definition.name outcome state))
    (hcircle : definition.name ∈ path → outcome = none)
    (hfind : definition.name ∉ path → Gives I find (· = outcome)) :
    Gives I (ledger.settle path definition use find) (· = outcome) := by
  refine ⟨fun state hstate => ?_⟩
  rw [settle_run]
  cases hentry : (ledger.entries state).find? definition.name with
  | some settled => exact ⟨hknown state settled hstate hentry, hstate⟩
  | none =>
      simp only
      split
      · rename_i hwaits
        exact ⟨(hcircle (List.contains_iff_mem.mp hwaits)).symm, hsaid state _ hstate⟩
      · rename_i hnew
        obtain ⟨hfound, hbehind⟩ :=
          (hfind fun hmem => hnew (List.contains_iff_mem.mpr hmem)).gives state hstate
        exact ⟨hfound, hfound ▸ henter _ hbehind⟩

/-- There is an outcome, or something bad was reported. -/
theorem settle_honest {I bad : Evaluation → Prop}
    (hself : ∀ state, I state → I (Evaluation.complainSelf definition use state).2 ∧
      bad (Evaluation.complainSelf definition use state).2)
    (hknown : ∀ state, I state → (ledger.entries state).find? definition.name = some none →
      bad state)
    (henter : ∀ state outcome, I state → outcome.isSome = true ∨ bad state →
      I (ledger.enter definition.name outcome state))
    (hbad : ∀ state outcome, bad state → bad (ledger.enter definition.name outcome state))
    (hfind : definition.name ∉ path → Honest I bad find (Option.isSome · = true)) :
    Honest I bad (ledger.settle path definition use find) (Option.isSome · = true) := by
  suffices hstep : ∀ state, I state →
      let after := ledger.settle path definition use find state
      I after.2 ∧ (bad state → bad after.2) ∧ (after.1.isSome = true ∨ bad after.2) from
    ⟨fun state hstate => (hstep state hstate).1, fun state hstate => (hstep state hstate).2.1,
      fun state hstate => (hstep state hstate).2.2⟩
  intro state hstate
  simp only [settle_run]
  cases hentry : (ledger.entries state).find? definition.name with
  | some settled =>
      refine ⟨hstate, id, ?_⟩
      cases settled with
      | some value => exact .inl rfl
      | none => exact .inr (hknown state hstate hentry)
  | none =>
      simp only
      split
      · obtain ⟨hkeeps, hreported⟩ := hself state hstate
        exact ⟨hkeeps, fun _ => hreported, .inr hreported⟩
      · rename_i hnew
        have hfound := hfind fun hmem => hnew (List.contains_iff_mem.mpr hmem)
        have hanswer := hfound.answers state hstate
        exact ⟨henter _ _ (hfound.keeps state hstate) hanswer,
          fun hstill => hbad _ _ (hfound.stays state hstate hstill), hanswer.imp_right (hbad _ _)⟩

end Ledger

theorem valueOf_succ (definitions : List Definition) (scope : Scope) (depth : Nat)
    (path : List Bytes) (definition : Definition) (use : Span) :
    valueOf definitions scope (depth + 1) path definition use =
      Ledger.values.settle path definition use
        (match definition.value with
        | some tree =>
            evaluateTree (naming definitions scope definition.origin
              (valueOf definitions scope depth (definition.name :: path))) tree
        | none => pure none) := by
  simp only [valueOf]
  refine congrArg (get >>= ·) (funext fun state => ?_)
  simp only [Ledger.values]
  cases state.values.find? definition.name with
  | some settled => rfl
  | none => cases definition.value <;> rfl

theorem registerOf_succ (definitions : List Definition) (depth : Nat) (path : List Bytes)
    (definition : Definition) (use : Span) :
    registerOf definitions (depth + 1) path definition use =
      Ledger.registers.settle path definition use
        (match definition.aliasToken?, definition.value with
        | some token, _ =>
            match find? definitions token.text true, Register.parse? token.text with
            | some target, _ =>
                registerOf definitions depth (definition.name :: path) target
                  (token.span.rebase definition.origin)
            | none, some builtin => pure (some builtin)
            | none, none => do
                Evaluation.complain (.undefinedRegister token.text)
                  (token.span.rebase definition.origin)
                pure none
        | none, some tree => do
            Evaluation.complain (.aliasOfNoRegister definition.name)
              (tree.span.rebase definition.origin)
            pure none
        | none, none => pure none) := by
  simp only [registerOf]
  refine congrArg (get >>= ·) (funext fun state => ?_)
  simp only [Ledger.registers]
  cases state.registers.find? definition.name with
  | some settled => rfl
  | none =>
      cases definition.aliasToken? with
      | none => cases definition.value <;> rfl
      | some token =>
          simp only
          cases find? definitions token.text true with
          | some target => rfl
          | none => cases Register.parse? token.text <;> rfl

/-! ## What the walk answers -/

/-- The outcomes that have been entered are those of the least solutions. -/
structure Right (definitions : List Definition) (state : Evaluation) : Prop where
  valuesSorted : state.values.Sorted
  registersSorted : state.registers.Sorted
  values : ∀ name outcome, state.values.find? name = some outcome →
    outcome = (valueRule definitions).least name
  registers : ∀ name outcome, state.registers.find? name = some outcome →
    outcome = (registerRule definitions).least name

theorem find?_insertNew_elim {α : Type} {map : NameMap α} (hsorted : map.Sorted)
    {P : Bytes → α → Prop}
    {name : Bytes} {value : α} (h : ∀ other found, map.find? other = some found → P other found)
    (hname : P name value) {other : Bytes} {found : α}
    (hfound : (map.insertNew name value).find? other = some found) : P other found := by
  rw [NameMap.find?_insertNew hsorted, Option.or_eq_some_iff] at hfound
  rcases hfound with hbefore | ⟨-, hnew⟩
  · exact h other found hbefore
  · split at hnew
    · rename_i heq
      subst heq
      exact Option.some.inj hnew ▸ hname
    · cases hnew

variable {definitions : List Definition}

theorem right_empty : Right definitions .empty where
  valuesSorted := NameMap.sorted_empty
  registersSorted := NameMap.sorted_empty
  values _ _ hfound := by cases hfound
  registers _ _ hfound := by cases hfound

theorem Right.said {state : Evaluation} (h : Right definitions state) (said : Diagnostics) :
    Right definitions { state with diagnostics := said } :=
  ⟨h.valuesSorted, h.registersSorted, h.values, h.registers⟩

theorem Right.enterValue {state : Evaluation} (h : Right definitions state) (name : Bytes) :
    Right definitions (Ledger.values.enter name ((valueRule definitions).least name) state) where
  valuesSorted := h.valuesSorted.insertNew _ _
  registersSorted := h.registersSorted
  values _ _ hfound := find?_insertNew_elim h.valuesSorted h.values rfl hfound
  registers := h.registers

theorem Right.enterRegister {state : Evaluation} (h : Right definitions state) (name : Bytes) :
    Right definitions (Ledger.registers.enter name ((registerRule definitions).least name)
      state) where
  valuesSorted := h.valuesSorted
  registersSorted := h.registersSorted.insertNew _ _
  values := h.values
  registers _ _ hfound := find?_insertNew_elim h.registersSorted h.registers rfl hfound

/-- The names that a walk gives to an expression are those of an environment, if it gives these
values to the definitions that the expression mentions. -/
theorem naming_like {I : Evaluation → Prop}
    (hsaid : ∀ (state : Evaluation) (said : Diagnostics), I state →
      I { state with diagnostics := said })
    (scope : Scope) (origin : Location) {names : Bytes → Prop} {env : Bytes → Option Value}
    {valueOf : Definition → Span → StateM Evaluation (Option Value)}
    (h : ∀ definition span, names definition.name →
      find? definitions definition.name false = some definition →
        Gives I (valueOf definition span) (· = env definition.name)) :
    (naming definitions scope origin valueOf).Like I names (given definitions origin env) where
  base := rfl
  report _ state hstate := hsaid state _ hstate
  name name span hname := by
    simp only [Naming.readName, given, naming]
    cases hfound : find? definitions name false with
    | some definition =>
        obtain rfl := name_of_find? hfound
        simp only [bind_assoc]
        refine (Mirrors.of_gives (h definition span hname hfound)).bind fun value found hvalue => ?_
        subst hvalue
        cases value <;> exact .pure (.refl _)
    | none =>
        -- What is declared, but not defined, is a place, and what is not declared is an error.
        have hnone : Scope.empty.findSymbol? name = none := rfl
        simp only [hnone]
        have hcomplain {expr : Expr} (hexpr : expr.Alike (.error span)) :
            Mirrors I Expr.Alike (Pure.pure expr : StateM Evaluation Expr) (do
              (given definitions origin env).complain (.undefinedSymbol name) span
              return .error span) :=
          fun state start hstate => ⟨hexpr, hstate⟩
        cases scope.findSymbol? name with
        | some symbol => exact hcomplain (Expr.alike_of_not_settled id id)
        | none =>
            exact (Mirrors.modify fun state hstate => hsaid state _ hstate).bind fun _ _ _ =>
              .pure (.refl _)
  register name span :=
    (Mirrors.modify fun state hstate => hsaid state _ hstate).bind fun _ _ _ => .pure (.refl _)

theorem name_mem {definition : Definition} {isRegister : Bool}
    (h : find? definitions definition.name isRegister = some definition) :
    definition.name ∈ definitions.map Definition.name :=
  List.mem_map_of_mem (List.mem_of_find?_eq_some h)

/-- The walk finds the least solution for values, as long as it has entered nothing else. -/
theorem valueOf_gives (hformed : ∀ definition ∈ definitions, definition.Formed) (scope : Scope)
    (depth : Nat) (path : List Bytes) (definition : Definition) (use : Span)
    (hfound : find? definitions definition.name false = some definition)
    (hwaiting : Waiting definitions (valueNames definitions) path definition.name depth) :
    Gives (Right definitions) (valueOf definitions scope depth path definition use)
      (· = (valueRule definitions).least definition.name) := by
  have hasks := valueRule_asks hformed
  have hsaid (state : Evaluation) (said : Diagnostics) (hstate : Right definitions state) :
      Right definitions { state with diagnostics := said } := hstate.said said
  induction depth generalizing path definition use with
  | zero => exact absurd hwaiting.pos (Nat.lt_irrefl 0)
  | succ depth ih =>
      rw [valueOf_succ]
      refine Ledger.settle_gives hsaid (fun state settled hstate => hstate.values _ _)
        (fun state hstate => hstate.enterValue _)
        (fun hmem => hasks.least_eq_none .refl (hwaiting.circle hmem)) fun hnew => ?_
      obtain ⟨tree, htree, -⟩ := hformed definition (List.mem_of_find?_eq_some hfound)
      rw [hasks.solves_least definition.name, valueRule, hfound, Option.bind_some, htree,
        Option.bind_some]
      have hlike : (naming definitions scope definition.origin
            (valueOf definitions scope depth (definition.name :: path))).Like (Right definitions)
          (· ∈ tree.namesIn) (given definitions definition.origin
            (valueRule definitions).least) := by
        refine naming_like hsaid scope definition.origin fun target span hmem htarget => ?_
        refine ih (definition.name :: path) target span htarget ?_
        refine hwaiting.step hnew (name_mem hfound) ?_
        simp [Refers, valueNames, hfound, htree, hmem, htarget]
      exact ⟨fun state hstate =>
        evaluateTree_mirrors hsaid hlike (fun name hname => hname) state .empty hstate⟩

/-- The walk finds the least solution for aliases. -/
theorem registerOf_gives (depth : Nat) (path : List Bytes) (definition : Definition) (use : Span)
    (hfound : find? definitions definition.name true = some definition)
    (hwaiting : Waiting definitions (registerNames definitions) path definition.name depth) :
    Gives (Right definitions) (registerOf definitions depth path definition use)
      (· = (registerRule definitions).least definition.name) := by
  have hasks := @registerRule_asks definitions
  have hsaid (state : Evaluation) (said : Diagnostics) (hstate : Right definitions state) :
      Right definitions { state with diagnostics := said } := hstate.said said
  have hrefused (problem : NameProblem) (span : Span) : Gives (Right definitions)
      (do Evaluation.complain problem span; return none) (· = (none : Option Register)) :=
    (Gives.modify fun state hstate => hsaid state _ hstate).map fun _ _ => rfl
  induction depth generalizing path definition use with
  | zero => exact absurd hwaiting.pos (Nat.lt_irrefl 0)
  | succ depth ih =>
      rw [registerOf_succ]
      refine Ledger.settle_gives hsaid (fun state settled hstate => hstate.registers _ _)
        (fun state hstate => hstate.enterRegister _)
        (fun hmem => hasks.least_eq_none .refl (hwaiting.circle hmem)) fun hnew => ?_
      rw [hasks.solves_least definition.name, registerRule, hfound, Option.bind_some]
      cases htoken : definition.aliasToken? with
      | none =>
          simp only [Option.bind_none]
          split
          · rename_i hsome
            cases hsome
          · exact hrefused _ _
          · exact .pure rfl
      | some token =>
          simp only [Option.bind_some]
          cases htarget : find? definitions token.text true with
          | some target =>
              obtain hname := name_of_find? htarget
              simp only [Option.isSome_some, if_true]
              rw [← hname] at htarget ⊢
              refine ih (definition.name :: path) target _ htarget ?_
              refine hwaiting.step hnew (name_mem hfound) ?_
              simp [Refers, registerNames, hfound, htoken, ← hname, htarget]
          | none =>
              simp only [Option.isSome_none, Bool.false_eq_true, if_false]
              cases Register.parse? token.text with
              | some builtin => exact .pure rfl
              | none => exact hrefused _ _

/-! ## What the walk reports -/

/-- An error has been reported. -/
def Erring (state : Evaluation) : Prop := state.diagnostics.hasErrors = true

/-- If a definition was entered without an outcome, an error has been reported. -/
structure Witnessed (state : Evaluation) : Prop where
  valuesSorted : state.values.Sorted
  registersSorted : state.registers.Sorted
  values : ∀ name outcome, state.values.find? name = some outcome →
    outcome.isSome = true ∨ Erring state
  registers : ∀ name outcome, state.registers.find? name = some outcome →
    outcome.isSome = true ∨ Erring state

theorem witnessed_empty : Witnessed .empty where
  valuesSorted := NameMap.sorted_empty
  registersSorted := NameMap.sorted_empty
  values _ _ hfound := by cases hfound
  registers _ _ hfound := by cases hfound

/-- Behind a report of an error nothing is left to show. -/
theorem Witnessed.report {state : Evaluation} (h : Witnessed state) {diagnostic : Diagnostic}
    (herror : diagnostic.isError = true) :
    Witnessed (state.report diagnostic) ∧ Erring (state.report diagnostic) := by
  have herring : Erring (state.report diagnostic) := by
    simp [Erring, Evaluation.report, Diagnostics.hasErrors, herror]
  exact ⟨⟨h.valuesSorted, h.registersSorted, fun _ _ _ => .inr herring, fun _ _ _ => .inr herring⟩,
    herring⟩

theorem Witnessed.enterValue {state : Evaluation} {outcome : Option Value} (h : Witnessed state)
    (houtcome : outcome.isSome = true ∨ Erring state) (name : Bytes) :
    Witnessed (Ledger.values.enter name outcome state) where
  valuesSorted := h.valuesSorted.insertNew _ _
  registersSorted := h.registersSorted
  values _ _ hfound := find?_insertNew_elim h.valuesSorted h.values houtcome hfound
  registers := h.registers

theorem Witnessed.enterRegister {state : Evaluation} {outcome : Option Register}
    (h : Witnessed state) (houtcome : outcome.isSome = true ∨ Erring state) (name : Bytes) :
    Witnessed (Ledger.registers.enter name outcome state) where
  valuesSorted := h.valuesSorted
  registersSorted := h.registersSorted.insertNew _ _
  values := h.values
  registers _ _ hfound := find?_insertNew_elim h.registersSorted h.registers houtcome hfound

theorem complain_honest {α : Type} {P : α → Prop} (problem : NameProblem) (span : Span)
    (value : α) :
    Honest Witnessed Erring (do Evaluation.complain problem span; return value) P :=
  Honest.behind_bad fun _ hstate => hstate.report rfl

/-- A step on the diagnostics of an evaluation. -/
theorem reporting_honest {α : Type} {step : Reporting α} {P : α → Prop}
    (h : ∀ {I bad : Diagnostics → Prop}, Computation.Loud I bad → Honest I bad step P) :
    Honest Witnessed Erring (Evaluation.reporting step) P := by
  have hstep (state : Evaluation) :
      Honest (fun said => Witnessed { state with diagnostics := said })
        (fun said => Erring { state with diagnostics := said }) step P :=
    h ⟨fun problem span said hsaid => hsaid.report rfl⟩
  exact ⟨fun state hstate => (hstep state).keeps state.diagnostics hstate,
    fun state hstate hbad => (hstep state).stays state.diagnostics hstate hbad,
    fun state hstate => (hstep state).answers state.diagnostics hstate⟩

theorem naming_candid {scope : Scope} {origin : Location}
    {valueOf : Definition → Span → StateM Evaluation (Option Value)}
    (h : ∀ definition span, find? definitions definition.name false = some definition →
      Honest Witnessed Erring (valueOf definition span) (Option.isSome · = true)) :
    (naming definitions scope origin valueOf).Candid Witnessed Erring where
  report problem span state hstate := hstate.report rfl
  meaning name span := by
    simp only [naming]
    cases hfound : find? definitions name false with
    | some definition =>
        obtain rfl := name_of_find? hfound
        refine (h definition span hfound).follow fun value => ?_
        cases value with
        | some value => exact .pure fun _ hbroken => by cases hbroken
        | none => exact .pure fun hsome => by cases hsome
    | none => cases scope.findSymbol? name <;> exact .pure fun hbroken => by cases hbroken
  register? name span := complain_honest _ _ _

/-- A well-formed expression has a value, or an error was reported. -/
theorem evaluateTree_honest {naming : Naming Evaluation} (h : naming.Candid Witnessed Erring)
    {tree : SyntaxTree} (htree : tree.FormedAs SyntaxKind.isExpression) :
    Honest Witnessed Erring (evaluateTree naming tree) (Option.isSome · = true) := by
  refine (h.read htree.1 htree.2).follow fun expr => ?_
  split
  · rename_i herror
    cases expr with
    | error span => exact .pure fun hfaultless => False.elim hfaultless
    | _ => cases herror
  · exact (reporting_honest fun hloud => hloud.evaluate_honest expr).mono
      fun _ hvalue hfaultless => hvalue hfaultless

/-- Any definition may be asked for. -/
abbrev anyName (definitions : List Definition) (_ : Bytes) : List Bytes :=
  definitions.map Definition.name

theorem Waiting.any {path : List Bytes} {name : Bytes} {depth : Nat}
    (h : Waiting definitions (anyName definitions) path name (depth + 1)) (hnew : name ∉ path)
    (hdefined : name ∈ definitions.map Definition.name) {other : Definition}
    (hother : other ∈ definitions) :
    Waiting definitions (anyName definitions) (name :: path) other.name depth :=
  h.step hnew hdefined (List.mem_map_of_mem hother)

theorem settle_erring {definition : Definition} {use : Span} (state : Evaluation)
    (hstate : Witnessed state) :
    Witnessed (Evaluation.complainSelf definition use state).2 ∧
      Erring (Evaluation.complainSelf definition use state).2 := hstate.report rfl

section Honesty

variable (hformed : ∀ definition ∈ definitions, definition.Formed)

include hformed

/-- The walk finds a value, or an error was reported. -/
theorem valueOf_honest (scope : Scope) (depth : Nat) (path : List Bytes) (definition : Definition)
    (use : Span) (hmem : definition ∈ definitions)
    (hwaiting : Waiting definitions (anyName definitions) path definition.name depth) :
    Honest Witnessed Erring (valueOf definitions scope depth path definition use)
      (Option.isSome · = true) := by
  induction depth generalizing path definition use with
  | zero => exact absurd hwaiting.pos (Nat.lt_irrefl 0)
  | succ depth ih =>
      rw [valueOf_succ]
      refine Ledger.settle_honest settle_erring
        (fun state hstate hnone => (hstate.values _ _ hnone).resolve_left (by simp))
        (fun state outcome hstate houtcome => hstate.enterValue houtcome _)
        (fun _ _ hbad => hbad) fun hnew => ?_
      obtain ⟨tree, htree, hexpr⟩ := hformed definition hmem
      rw [htree]
      refine evaluateTree_honest (naming_candid fun target span htarget => ?_) hexpr
      have htarget := List.mem_of_find?_eq_some htarget
      exact ih _ target span htarget (hwaiting.any hnew (List.mem_map_of_mem hmem) htarget)

/-- The walk finds a register, or an error was reported. -/
theorem registerOf_honest (depth : Nat) (path : List Bytes) (definition : Definition)
    (use : Span) (hmem : definition ∈ definitions)
    (hwaiting : Waiting definitions (anyName definitions) path definition.name depth) :
    Honest Witnessed Erring (registerOf definitions depth path definition use)
      (Option.isSome · = true) := by
  induction depth generalizing path definition use with
  | zero => exact absurd hwaiting.pos (Nat.lt_irrefl 0)
  | succ depth ih =>
      rw [registerOf_succ]
      refine Ledger.settle_honest settle_erring
        (fun state hstate hnone => (hstate.registers _ _ hnone).resolve_left (by simp))
        (fun state outcome hstate houtcome => hstate.enterRegister houtcome _)
        (fun _ _ hbad => hbad) fun hnew => ?_
      obtain ⟨tree, htree, -⟩ := hformed definition hmem
      rw [htree]
      cases definition.aliasToken? with
      | none => exact complain_honest _ _ _
      | some token =>
          simp only
          cases htarget : find? definitions token.text true with
          | some target =>
              have htarget := List.mem_of_find?_eq_some htarget
              exact ih _ target _ htarget (hwaiting.any hnew (List.mem_map_of_mem hmem) htarget)
          | none =>
              cases Register.parse? token.text with
              | some builtin => exact .pure rfl
              | none => exact complain_honest _ _ _

end Honesty

/-! ## How deep the walk goes -/

/-- A definition is asked only where it is found. -/
theorem naming_congr (scope : Scope) (origin : Location)
    {valueOf other : Definition → Span → StateM Evaluation (Option Value)}
    (h : ∀ definition ∈ definitions, valueOf definition = other definition) :
    naming definitions scope origin valueOf = naming definitions scope origin other := by
  have hmeaning : (naming definitions scope origin valueOf).meaning =
      (naming definitions scope origin other).meaning := by
    funext name span
    simp only [naming]
    cases hfound : find? definitions name false with
    | none => rfl
    | some definition => simp only [h definition (List.mem_of_find?_eq_some hfound)]
  exact congrArg (fun meaning => { naming definitions scope origin other with meaning }) hmeaning

theorem Ledger.settle_congr {α : Type} {ledger : Ledger α} {path : List Bytes}
    {definition : Definition} {use : Span} {find other : StateM Evaluation (Option α)}
    (h : definition.name ∉ path → find = other) :
    ledger.settle path definition use find = ledger.settle path definition use other := by
  funext state
  rw [settle_run, settle_run]
  cases (ledger.entries state).find? definition.name with
  | some settled => rfl
  | none =>
      simp only
      split
      · rfl
      · rename_i hnew
        rw [h fun hmem => hnew (List.contains_iff_mem.mpr hmem)]

/-- More steps than the walk needs make no difference. -/
theorem valueOf_depth (scope : Scope) (depth more : Nat) (path : List Bytes)
    (definition : Definition) (use : Span) (hmem : definition ∈ definitions)
    (hwaiting : Waiting definitions (anyName definitions) path definition.name depth) :
    valueOf definitions scope (depth + more) path definition use =
      valueOf definitions scope depth path definition use := by
  induction depth generalizing path definition use with
  | zero => exact absurd hwaiting.pos (Nat.lt_irrefl 0)
  | succ depth ih =>
      rw [Nat.succ_add, valueOf_succ, valueOf_succ]
      refine Ledger.settle_congr fun hnew => ?_
      rw [naming_congr scope definition.origin fun target htarget => funext fun span =>
        ih _ target span htarget (hwaiting.any hnew (List.mem_map_of_mem hmem) htarget)]

theorem registerOf_depth (depth more : Nat) (path : List Bytes) (definition : Definition)
    (use : Span) (hmem : definition ∈ definitions)
    (hwaiting : Waiting definitions (anyName definitions) path definition.name depth) :
    registerOf definitions (depth + more) path definition use =
      registerOf definitions depth path definition use := by
  induction depth generalizing path definition use with
  | zero => exact absurd hwaiting.pos (Nat.lt_irrefl 0)
  | succ depth ih =>
      rw [Nat.succ_add, registerOf_succ, registerOf_succ]
      refine Ledger.settle_congr fun hnew => ?_
      cases definition.aliasToken? with
      | none => cases definition.value <;> rfl
      | some token =>
          simp only
          cases htarget : find? definitions token.text true with
          | none => cases Register.parse? token.text <;> rfl
          | some target =>
              have htarget := List.mem_of_find?_eq_some htarget
              exact ih _ target _ htarget (hwaiting.any hnew (List.mem_map_of_mem hmem) htarget)

end Definition

end NovelAsm
