import NovelAsm.Proofs.Renaming.Reading
import NovelAsm.Proofs.Resolve.Rules

/-!
Definitions with other names for symbols. As long as the values that are defined keep their names,
a definition has the value that it has in the words of the other names, or the same register.
-/

namespace NovelAsm

/-- Other names for symbols alone. -/
def Names.ofSymbol (symbol : Bytes → Bytes) : Names := ⟨symbol, id⟩

/-- A scope with other names for symbols. -/
def Scope.rename (names : Names) (scope : Scope) : Scope :=
  { scope with symbols := scope.symbols.map (Symbol.rename names) }

theorem Scope.findSymbol?_rename {names : Names} (hinjective : Function.Injective names.symbol)
    (scope : Scope) (name : Bytes) : (scope.rename names).findSymbol? (names.symbol name) =
      (scope.findSymbol? name).map (Symbol.rename names) := by
  rw [findSymbol?, rename, List.find?_map, findSymbol?]
  congr 2
  funext symbol
  exact (hinjective.beq_eq : (names.symbol symbol.name == names.symbol name) = _)

namespace Evaluation

/-- How much has been said. -/
def said (state : Evaluation) : Nat := state.diagnostics.length

theorem said_report (diagnostic : Diagnostic) (state : Evaluation) :
    state.said < (state.report diagnostic).said := by
  have hlength : (state.report diagnostic).said = state.said + 1 := List.length_append
  omega

/-- Nothing need be shown behind a complaint. -/
theorem behind_report {α β : Type} {result : α → β} {value : α} {other : StateM Evaluation β}
    (diagnostic : Diagnostic) :
    Follows said result (modify (report diagnostic) >>= fun _ => pure value) other :=
  Follows.behind (said_report diagnostic) fun _ _ => le_rfl

theorem reporting_follows {α β : Type} {result : α → β} {step : Reporting α} {other : Reporting β}
    (h : Repeats result step other) : Follows said result (reporting step) (reporting other) := by
  intro state
  obtain ⟨hmore, hother⟩ := h state.diagnostics
  refine ⟨hmore, fun hsame => ?_⟩
  change ((other state.diagnostics).1,
    { state with diagnostics := (other state.diagnostics).2 }) = _
  rw [hother hsame]
  rfl

end Evaluation

namespace Definition

open Evaluation (said)

/-- A definition with other names in what is defined. -/
def rename (symbol : Bytes → Bytes) (definition : Definition) : Definition :=
  { definition with
    value := definition.value.map (SyntaxTree.recast (Names.ofSymbol symbol).token .definition) }

@[simp]
theorem name_rename (symbol : Bytes → Bytes) (definition : Definition) :
    (definition.rename symbol).name = definition.name := rfl

/-- The values that are defined keep their names. -/
def Kept (symbol : Bytes → Bytes) (definitions : List Definition) : Prop :=
  ∀ definition ∈ definitions, definition.isRegister = false →
    symbol definition.name = definition.name

variable {symbol : Bytes → Bytes} {definitions : List Definition} {scope : Scope}

theorem find?_rename (name : Bytes) (isRegister : Bool) :
    find? (definitions.map (rename symbol)) name isRegister =
      (find? definitions name isRegister).map (rename symbol) := by
  simp only [find?, List.find?_map]
  rfl

/-- A name means the definition of a value if its other name does. -/
theorem find?_kept (hinjective : Function.Injective symbol) (hkept : Kept symbol definitions)
    (name : Bytes) : find? definitions (symbol name) false = find? definitions name false := by
  refine List.find?_congr fun definition hmem => ?_
  cases hsort : definition.isRegister with
  | true => simp
  | false =>
      have hsame : (definition.name == symbol name) = (definition.name == name) := by
        conv_lhs => rw [← hkept definition hmem hsort]
        exact hinjective.beq_eq
      rw [hsame]

theorem aliasToken?_rename {definition : Definition} (h : definition.Formed) :
    (definition.rename symbol).aliasToken? = definition.aliasToken? := by
  obtain ⟨tree, htree, hformed, hkind⟩ := h
  cases tree with
  | token leaf => cases hkind
  | node kind children =>
      simp only [aliasToken?, rename, htree, Option.map_some, Option.bind_some,
        SyntaxTree.kind?_recast]
      split
      · rename_i hregister
        obtain rfl : kind = .registerExpr := Option.some.inj (beq_iff_eq.mp hregister)
        have hheaded := hformed.headed rfl hformed.shaped
        rw [SyntaxTree.recast_node, SyntaxTree.firstSignificant?_recast _ hheaded]
        exact Option.map_id_apply
      · rfl

section

variable (hformed : ∀ definition ∈ definitions, definition.Formed)
  (hinjective : Function.Injective symbol) (hkept : Kept symbol definitions)

include hinjective hkept

theorem naming_renames (origin : Location)
    {value other : Definition → Span → StateM Evaluation (Option Value)}
    (h : ∀ definition ∈ definitions, ∀ use,
      Follows said id (value definition use) (other (definition.rename symbol) use)) :
    (naming definitions scope origin value).Renames said (.ofSymbol symbol) (fun _ => True)
      (naming (definitions.map (rename symbol)) (scope.rename (.ofSymbol symbol)) origin
        other) where
  base := rfl
  loud := Evaluation.said_report
  meaning name span := by
    have hfind : find? (definitions.map (rename symbol)) (symbol name) false =
        (find? definitions name false).map (rename symbol) := by
      rw [find?_rename, find?_kept hinjective hkept]
    simp only [naming, Names.ofSymbol, hfind]
    cases hdefinition : find? definitions name false with
    | some definition =>
        have hmem := List.mem_of_find?_eq_some hdefinition
        refine (h definition hmem span).bind fun value => ?_
        cases value <;> exact .pure rfl
    | none =>
        have hsymbol := @Scope.findSymbol?_rename (.ofSymbol symbol) hinjective scope name
        simp only [Names.ofSymbol] at hsymbol
        simp only [Option.map_none, hsymbol]
        cases scope.findSymbol? name <;> exact .pure rfl
  register name span _ := Evaluation.behind_report _

include hformed

theorem valueOf_follows (depth : Nat) (path : List Bytes) {definition : Definition}
    (hmem : definition ∈ definitions) (use : Span) :
    Follows said id (valueOf definitions scope depth path definition use)
      (valueOf (definitions.map (rename symbol)) (scope.rename (.ofSymbol symbol)) depth path
        (definition.rename symbol) use) := by
  induction depth generalizing path definition use with
  | zero => exact .pure rfl
  | succ depth ih =>
      have hnaming := @naming_renames symbol definitions scope hinjective hkept definition.origin
        _ _ fun target hmem span => ih (definition.name :: path) hmem span
      obtain ⟨tree, htree, htreeFormed⟩ := hformed definition hmem
      have hother : (definition.rename symbol).value =
          some (tree.recast (Names.ofSymbol symbol).token .definition) := by
        rw [rename, htree, Option.map_some]
      simp only [valueOf, htree, hother, name_rename]
      refine .get fun state => ?_
      cases state.values.find? definition.name with
      | some settled => exact .pure rfl
      | none =>
          refine .ite Iff.rfl (Evaluation.behind_report _) ?_
          have hread := Naming.read_follows hnaming tree .definition htreeFormed.1
            fun _ _ => trivial
          have hvalue : Follows said id (evaluateTree _ tree) (evaluateTree _ _) :=
            hread.bind fun expr => .ite (by rw [Expr.isError_rename]) (.pure rfl)
              (Evaluation.reporting_follows (Expr.evaluate_repeats _ expr))
          exact hvalue.bind fun value => .refl fun _ => le_rfl

omit hinjective hkept

theorem registerOf_follows (depth : Nat) (path : List Bytes) {definition : Definition}
    (hmem : definition ∈ definitions) (use : Span) :
    Follows said id (registerOf definitions depth path definition use)
      (registerOf (definitions.map (rename symbol)) depth path (definition.rename symbol) use) := by
  induction depth generalizing path definition use with
  | zero => exact .pure rfl
  | succ depth ih =>
      obtain ⟨tree, htree, -⟩ := hformed definition hmem
      have hother : (definition.rename symbol).value =
          some (tree.recast (Names.ofSymbol symbol).token .definition) := by
        rw [rename, htree, Option.map_some]
      have hsettle (register : Option Register) : Follows said id
          (do
            modify fun state : Evaluation =>
              { state with registers := state.registers.insertNew definition.name register }
            return register)
          (do
            modify fun state : Evaluation =>
              { state with registers := state.registers.insertNew definition.name register }
            return register) := .refl fun _ => le_rfl
      simp only [registerOf, aliasToken?_rename (hformed definition hmem), htree, hother,
        find?_rename, name_rename]
      refine .get fun state => ?_
      cases state.registers.find? definition.name with
      | some settled => exact .pure rfl
      | none =>
          refine .ite Iff.rfl (Evaluation.behind_report _) ?_
          cases definition.aliasToken? with
          | some token =>
              simp only
              cases htarget : find? definitions token.text true with
              | some target =>
                  exact (ih _ (List.mem_of_find?_eq_some htarget) _).bind hsettle
              | none =>
                  simp only [Option.map_none]
                  cases Register.parse? token.text with
                  | some builtin => exact hsettle (some builtin)
                  | none => exact .behind (Evaluation.said_report _) fun _ _ => le_rfl
          | none => exact .behind (Evaluation.said_report _) fun _ _ => le_rfl

end

end Definition

end NovelAsm
