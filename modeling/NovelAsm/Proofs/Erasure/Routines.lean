import NovelAsm.Resolve.Routines
import NovelAsm.Proofs.Erasure.Reading

/-!
Routines without places. The core of a segment's tree is resolved to the routines of the
segment without their places, and as much is reported.
-/

namespace NovelAsm

variable {front : Diagnostics}

namespace Scope

/-- A scope without places. -/
def bare (scope : Scope) : Scope := { scope with symbols := scope.symbols.map Symbol.bare }

@[simp] theorem findSymbol?_bare (scope : Scope) (name : Bytes) :
    scope.bare.findSymbol? name = (scope.findSymbol? name).map Symbol.bare := by
  simp only [findSymbol?, bare, List.find?_map]
  rfl

@[simp] theorem findValue?_bare (scope : Scope) (name : Bytes) :
    scope.bare.findValue? name = scope.findValue? name := rfl

@[simp] theorem findRegister?_bare (scope : Scope) (name : Bytes) :
    scope.bare.findRegister? name = scope.findRegister? name := rfl

end Scope

namespace Statement

/-- A statement without places. -/
def bare : Statement → Statement
  | .label _ name => .label .origin name
  | .instruction _ mnemonic arguments => .instruction .origin mnemonic (arguments.map Argument.bare)

@[simp] theorem bare_bare (statement : Statement) : statement.bare.bare = statement.bare := by
  cases statement <;> simp [bare]

end Statement

namespace Routine

/-- A routine without places. -/
def bare (routine : Routine) : Routine :=
  { routine with statements := routine.statements.map Statement.bare, span := .origin }

@[simp] theorem bare_bare (routine : Routine) : routine.bare.bare = routine.bare := by
  simp [bare]

variable (scope : Scope) (aliases : Aliases)

theorem registerNamed?_bare (name : Bytes) :
    registerNamed? scope.bare aliases name = registerNamed? scope aliases name := rfl

theorem naming_bares :
    (naming scope aliases).Bares (Diagnostics.bareBehind front) (naming scope.bare aliases) where
  base := rfl
  report diagnostic start := by
    simp [naming, Diagnostics.bareBehind, Diagnostics.bare]
  meaning name span := by
    apply Erases.pure
    rw [Scope.findValue?_bare, Scope.findSymbol?_bare]
    cases scope.findValue? name with
    | some value => rfl
    | none => cases scope.findSymbol? name <;> rfl
  register name span := by
    simp only [naming, registerNamed?_bare]
    split
    · exact Erases.pure rfl
    · exact (NameProblem.report_erases _ span).bind fun _ => Erases.pure rfl

theorem nameOf_core (tree : SyntaxTree) : nameOf tree.core = nameOf tree := by
  rw [nameOf, SyntaxTree.firstToken?_core, nameOf, Option.map_map]
  rfl

theorem registerTokens_core (tree : SyntaxTree) :
    registerTokens tree.core = (registerTokens tree).map Token.bare := by
  rw [registerTokens, SyntaxTree.tokens_core, List.filter_map]
  rfl

theorem bindParameters_erases (function : Bytes) (seen : List Token) (position : Nat)
    (tokens : List Token) :
    Erases (Diagnostics.bareBehind front) id (bindParameters function seen position tokens)
      (bindParameters function (seen.map Token.bare) position (tokens.map Token.bare)) := by
  induction tokens generalizing seen position with
  | nil => exact Erases.pure rfl
  | cons token rest ih =>
      have hseen : (seen.map Token.bare).find? (·.text == token.text) =
          (seen.find? (·.text == token.text)).map Token.bare :=
        SyntaxTree.find?_map_bare _ _ fun _ => rfl
      simp only [List.map_cons, bindParameters, Token.text_bare, Token.span_bare, hseen]
      refine Erases.ite Iff.rfl (fun _ => (NameProblem.report_erases _ _).bind fun _ =>
        ih seen (position + 1)) fun _ => ?_
      cases seen.find? (·.text == token.text) with
      | some earlier =>
          refine @Erases.bind _ _ _ _ _ _ id _ _ _ _ _ ?_ fun _ => ih seen (position + 1)
          have hreport := @Reporting.report_erases front
            ((NameProblem.duplicateParameter token.text).diagnoseDuplicate token.span earlier.span)
          rwa [NameProblem.bare_diagnoseDuplicate] at hreport
      | none =>
          have hothers := ih (token :: seen) (position + 1)
          refine Erases.ite Iff.rfl (fun _ => ?_) fun _ => ?_
          · refine (NameProblem.report_erases _ _).bind fun _ => ?_
            exact hothers.map fun others => rfl
          · exact hothers.map fun others => rfl

theorem preservedEnd?_erases (token : Token) :
    Erases (Diagnostics.bareBehind front) id (preservedEnd? scope aliases token)
      (preservedEnd? scope.bare aliases token.bare) := by
  simp only [preservedEnd?, Token.text_bare, Token.span_bare, registerNamed?_bare]
  have hreport (problem : NameProblem) : Erases (Diagnostics.bareBehind front) id
      (do problem.report token.span; return (none : Option Register))
      (do problem.report .origin; return none) :=
    (NameProblem.report_erases problem token.span).bind fun _ => Erases.pure rfl
  refine Erases.ite Iff.rfl (fun _ => hreport _) fun _ => ?_
  split
  · exact hreport _
  · exact Erases.ite Iff.rfl (fun _ => hreport _) fun _ => Erases.pure rfl

theorem addRange_erases (span : Span) (preserved registers : List Register) :
    Erases (Diagnostics.bareBehind front) id (addRange span preserved registers)
      (addRange .origin preserved registers) := by
  induction registers generalizing preserved with
  | nil => exact Erases.pure rfl
  | cons register rest ih =>
      simp only [addRange]
      exact Erases.ite Iff.rfl
        (fun _ => (NameProblem.report_erases _ span).bind fun _ => ih preserved)
        fun _ => ih (preserved ++ [register])

/-- Adding a range whose ends are known. -/
theorem preserveBetween_erases (preserved : List Register) (span : Span)
    (first last : Option Register) :
    Erases (Diagnostics.bareBehind front) id
      (match first, last with
        | some first, some last =>
            if last.index < first.index then do
              NameProblem.reversedRange.report span
              return preserved
            else addRange span preserved (valueRange first.index last.index)
        | _, _ => return preserved)
      (match first, last with
        | some first, some last =>
            if last.index < first.index then do
              NameProblem.reversedRange.report .origin
              return preserved
            else addRange .origin preserved (valueRange first.index last.index)
        | _, _ => return preserved) := by
  split
  · exact Erases.ite Iff.rfl
      (fun _ => (NameProblem.report_erases _ _).bind fun _ => Erases.pure rfl)
      fun _ => addRange_erases _ _ _
  · exact Erases.pure rfl

theorem preserve_erases (preserved : List Register) (range : SyntaxTree) :
    Erases (Diagnostics.bareBehind front) id (preserve scope aliases preserved range)
      (preserve scope.bare aliases preserved range.core) := by
  simp only [preserve, registerTokens_core, SyntaxTree.span_core]
  cases registerTokens range with
  | nil => exact Erases.pure rfl
  | cons token more =>
      simp only [List.map_cons]
      refine (preservedEnd?_erases scope aliases token).bind fun first => ?_
      rw [List.getLast?_map]
      cases more.getLast? with
      | none => exact preserveBetween_erases _ _ first first
      | some token =>
          exact (preservedEnd?_erases scope aliases token).bind fun last =>
            preserveBetween_erases _ _ first last

theorem readInstruction_erases (tree : SyntaxTree) :
    Erases (Diagnostics.bareBehind front) Statement.bare (readInstruction scope aliases tree)
      (readInstruction scope.bare aliases tree.core) := by
  have hmnemonic : (tree.core.firstSignificant?.map Token.text).getD [] =
      (tree.firstSignificant?.map Token.text).getD [] := by
    rw [SyntaxTree.firstSignificant?_core, Option.map_map]
    rfl
  simp only [readInstruction, SyntaxTree.span_core, hmnemonic, SyntaxTree.firstChild?_core]
  cases tree.firstChild? .argumentList with
  | none => exact Erases.pure rfl
  | some list =>
      simp only [Option.map_some, SyntaxTree.childNodes_core]
      exact (Erases.mapM fun argument _ =>
        Naming.readArgument_erases (naming_bares scope aliases) argument).map fun _ => rfl

theorem readBody_erases (trees : List SyntaxTree) :
    Erases (Diagnostics.bareBehind front) (List.map Statement.bare) (readBody scope aliases trees)
      (readBody scope.bare aliases (SyntaxTree.coreAll trees)) := by
  induction trees with
  | nil =>
      simp only [SyntaxTree.coreAll]
      exact Erases.pure rfl
  | cons tree rest ih =>
      cases tree with
      | token leaf =>
          simp only [SyntaxTree.coreAll]
          split <;> exact ih
      | node kind children =>
          rw [SyntaxTree.coreAll_node_cons]
          simp only [readBody, SyntaxTree.kind?_core, SyntaxTree.span_core, nameOf_core]
          split
          · exact ih.map fun _ => rfl
          · exact (readInstruction_erases scope aliases _).bind fun _ => ih.map fun _ => rfl
          · exact ih

theorem readProcedure_erases (kind : RoutineKind) (tree : SyntaxTree) :
    Erases (Diagnostics.bareBehind front) bare (readProcedure scope kind tree)
      (readProcedure scope.bare kind tree.core) := by
  have hparameters : ((tree.core.firstChild? .parameterList).map registerTokens).getD [] =
      (((tree.firstChild? .parameterList).map registerTokens).getD []).map Token.bare := by
    rw [SyntaxTree.firstChild?_core]
    cases tree.firstChild? .parameterList with
    | none => rfl
    | some list => simp [registerTokens_core]
  have hranges : ((tree.core.firstChild? .preservedRangeList).map SyntaxTree.childNodes).getD [] =
      (((tree.firstChild? .preservedRangeList).map SyntaxTree.childNodes).getD []).map
        SyntaxTree.core := by
    rw [SyntaxTree.firstChild?_core]
    cases tree.firstChild? .preservedRangeList with
    | none => rfl
    | some list => simp
  simp only [readProcedure, nameOf_core, hparameters, hranges, SyntaxTree.span_core,
    SyntaxTree.children_core, List.length_map]
  refine (bindParameters_erases _ [] 0 _).bind fun aliases => ?_
  refine (Erases.foldlM (fun preserved range => preserve_erases scope aliases preserved range)
    _ []).bind fun preserved => ?_
  exact (readBody_erases scope aliases _).map fun statements => rfl

theorem extend_bare (script : Routine) (statement : Statement) (span : Span) :
    script.bare.extend statement.bare .origin = (script.extend statement span).bare := by
  simp [extend, bare, Span.join]

theorem openScript_core (tree : SyntaxTree) : openScript tree.core = (openScript tree).bare := by
  rw [openScript, nameOf_core, SyntaxTree.span_core]
  rfl

theorem readItems_erases (current : Option Routine) (trees : List SyntaxTree) :
    Erases (Diagnostics.bareBehind front) (List.map bare) (readItems scope current trees)
      (readItems scope.bare (current.map bare) (SyntaxTree.coreAll trees)) := by
  have hcurrent (current : Option Routine) :
      (current.map bare).toList = current.toList.map bare := by cases current <;> rfl
  induction trees generalizing current with
  | nil =>
      simp only [SyntaxTree.coreAll]
      exact Erases.pure (hcurrent current)
  | cons tree rest ih =>
      cases tree with
      | token leaf =>
          simp only [SyntaxTree.coreAll]
          split <;> exact ih current
      | node kind children =>
          rw [SyntaxTree.coreAll_node_cons]
          simp only [readItems, SyntaxTree.kind?_core, SyntaxTree.span_core, hcurrent,
            openScript_core]
          split
          · exact (ih (some _)).map fun _ => by simp
          · cases current with
            | none =>
                exact (NameProblem.report_erases _ _).bind fun _ => ih none
            | some script =>
                refine (readInstruction_erases scope [] _).bind fun statement => ?_
                simp only [extend_bare script statement (SyntaxTree.node kind children).span]
                exact ih (some _)
          · exact (readProcedure_erases scope .function _).bind fun routine =>
              (ih none).map fun _ => by simp
          · exact (readProcedure_erases scope .subroutine _).bind fun routine =>
              (ih none).map fun _ => by simp
          · exact (ih none).map fun _ => by simp
          · exact ih current

/-- The core of a tree is resolved like the tree, but for places, whatever was reported before. -/
theorem readItems_core (front : Diagnostics) (tree : SyntaxTree) :
    readItems scope.bare none (SyntaxTree.coreAll tree.children) front =
      ((resolve scope tree).1.map bare, front ++ Diagnostics.bare (resolve scope tree).2) := by
  have hitems := @readItems_erases front scope none tree.children []
  rwa [Diagnostics.bareBehind, Diagnostics.bare_nil, List.append_nil] at hitems

end Routine

end NovelAsm
