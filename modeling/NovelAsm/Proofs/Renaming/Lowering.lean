import NovelAsm.Proofs.Erasure.Lowering
import NovelAsm.Proofs.Renaming.Routines

/-!
Code units with other names. The code of a routine holds the names of symbols and none of its
aliases: a register is read by its number. So the routine with other names is lowered to the same
instructions, which lead to the other names (`Routine.lower_rename`).
-/

namespace NovelAsm

/-! ## Other names for symbols in code -/

section

variable (symbol : Bytes → Bytes)

def Place.rename : Place → Place
  | .symbol name => .symbol (symbol name)
  | .address value => .address value

def CodeTarget.rename (destination : CodeTarget) : CodeTarget :=
  { destination with place := destination.place.rename symbol }

def Operand.rename (operand : Operand) : Operand :=
  { operand with value := operand.value.mapTargets (CodeTarget.rename symbol) }

def Instruction.rename (instruction : Instruction) : Instruction :=
  { instruction with operands := instruction.operands.map (Operand.rename symbol) }

def LabelMark.rename (label : LabelMark) : LabelMark := { label with name := symbol label.name }

namespace CodeUnit

/-- A code unit with other names. -/
def rename (unit : CodeUnit) : CodeUnit :=
  { unit with
    name := symbol unit.name
    instructions := unit.instructions.map (Instruction.rename symbol)
    labels := unit.labels.map (LabelMark.rename symbol) }

theorem rename_append (unit : CodeUnit) (instructions : List Instruction) :
    (unit.append instructions).rename symbol =
      (unit.rename symbol).append (instructions.map (Instruction.rename symbol)) := by
  simp [append, rename]

theorem rename_placeLabel (unit : CodeUnit) (name : Bytes) (span : Span) :
    (unit.placeLabel name span).rename symbol =
      (unit.rename symbol).placeLabel (symbol name) span := by
  simp [placeLabel, rename, LabelMark.rename]

end CodeUnit

end

/-! ## Operands -/

variable (names : Names)

/-- A step that may have no result. -/
abbrev RepeatsFound {α β : Type} (result : α → β) (step : Reporting (Option α))
    (other : Reporting (Option β)) : Prop :=
  Repeats (Option.map result) step other

namespace Expr

theorem toNumber_repeats (expr : Expr) :
    RepeatsFound id expr.toNumber (expr.rename names).toNumber := by
  simp only [toNumber, span_rename]
  refine (compute_repeats names expr).bind fun computation => .ite Iff.rfl (.pure rfl) ?_
  simp only [id_eq]
  cases computation.number? with
  | some number => exact .pure rfl
  | none => exact Repeats.refuse _ _

theorem toRegister_repeats (expr : Expr) :
    RepeatsFound id expr.toRegister (expr.rename names).toRegister := by
  cases expr with
  | register | error => exact .pure rfl
  | _ => exact Repeats.refuse _ _

theorem toBounded_repeats (limit : Int) (problem : OperandProblem) (expr : Expr) :
    RepeatsFound id (expr.toBounded limit problem)
      ((expr.rename names).toBounded limit problem) := by
  simp only [toBounded, span_rename]
  refine (compute_repeats names expr).bind fun computation => .ite Iff.rfl (.pure rfl) ?_
  simp only [id_eq]
  cases computation.constant? with
  | some value => exact .ite Iff.rfl (.pure rfl) (Repeats.refuse _ _)
  | none => exact Repeats.refuse _ _

theorem toText_repeats (expr : Expr) : RepeatsFound id expr.toText (expr.rename names).toText := by
  cases expr with
  | string | error => exact .pure rfl
  | _ => exact Repeats.refuse _ _

theorem toTarget_repeats (expr : Expr) :
    RepeatsFound (CodeTarget.rename names.symbol) expr.toTarget (expr.rename names).toTarget := by
  cases expr with
  | codeAddress | error => exact .pure rfl
  | literal span value =>
      obtain ⟨number, kind⟩ := value
      cases kind with
      | integer => exact .pure rfl
      | real => exact Repeats.refuse _ _
  | _ => exact Repeats.refuse _ _

theorem toTerms_repeats (expr : Expr) : RepeatsFound id expr.toTerms (expr.rename names).toTerms :=
  (compute_repeats names expr).map fun computation => by rw [Option.map_id]; rfl

end Expr

theorem allOf_repeats {α β γ δ : Type} {result : α → β} {outcome : γ → δ}
    {step : α → Reporting (Option γ)} {other : β → Reporting (Option δ)}
    (h : ∀ value, RepeatsFound outcome (step value) (other (result value))) (items : List α) :
    RepeatsFound (List.map outcome) (allOf step items) (allOf other (items.map result)) := by
  induction items with
  | nil => exact .pure rfl
  | cons first rest ih =>
      simp only [List.map_cons, allOf]
      refine (h first).bind fun value => ih.map fun values => ?_
      cases value <;> cases values <;> rfl

namespace Argument

variable {names}

theorem toExpr_repeats (argument : Argument) :
    RepeatsFound (Expr.rename names) argument.toExpr (argument.rename names).toExpr := by
  cases argument with
  | expression => exact .pure rfl
  | flag | array | jumpTable => exact Repeats.refuse _ _

theorem read_repeats {α β : Type} {result : α → β} {reader : Expr → Reporting (Option α)}
    {other : Expr → Reporting (Option β)} {toValue : α → OperandValue}
    {toOther : β → OperandValue}
    (h : ∀ expr, RepeatsFound result (reader expr) (other (expr.rename names)))
    (hvalue : ∀ value, toOther (result value) =
      (toValue value).mapTargets (CodeTarget.rename names.symbol))
    (argument : Argument) :
    RepeatsFound (Operand.rename names.symbol) (argument.read reader toValue)
      ((argument.rename names).read other toOther) := by
  refine (toExpr_repeats argument).bind fun expr => ?_
  cases expr with
  | none => exact .pure rfl
  | some expr =>
      simp only [Option.map_some, Expr.span_rename]
      refine (h expr).map fun value => ?_
      cases value with
      | none => rfl
      | some value => simp [Operand.rename, hvalue]

theorem toBitmask_repeats (argument : Argument) :
    RepeatsFound (Operand.rename names.symbol) argument.toBitmask
      (argument.rename names).toBitmask := by
  cases argument with
  | array span elements =>
      simp only [rename, toBitmask, List.length_map]
      refine .ite Iff.rfl (Repeats.refuse _ _)
        ((allOf_repeats (Expr.toNumber_repeats names) elements).map fun numbers => ?_)
      cases numbers with
      | none => rfl
      | some numbers => simp [Operand.rename, OperandValue.mapTargets]
  | _ => exact Repeats.refuse _ _

theorem toPaddedTable_repeats (argument : Argument) :
    RepeatsFound (Operand.rename names.symbol) argument.toPaddedTable
      (argument.rename names).toPaddedTable := by
  cases argument with
  | array span elements =>
      refine (allOf_repeats (Expr.toNumber_repeats names) elements).map fun numbers => ?_
      cases numbers with
      | none => rfl
      | some numbers => simp [Operand.rename, OperandValue.mapTargets]
  | _ => exact Repeats.refuse _ _

/-- A key with its target under its other name. -/
def renameCase (names : Names) (entry : Int32 × CodeTarget) : Int32 × CodeTarget :=
  (entry.1, entry.2.rename names.symbol)

theorem toCase_repeats (tableCase : TableCase) :
    RepeatsFound (renameCase names) (toCase tableCase) (toCase (tableCase.rename names)) := by
  refine (Expr.toBounded_repeats names _ _ tableCase.key).bind fun key =>
    (Expr.toTarget_repeats names tableCase.target).map fun destination => ?_
  cases key <;> cases destination <;> rfl

theorem toTargetTable_repeats (argument : Argument) :
    RepeatsFound (Operand.rename names.symbol) argument.toTargetTable
      (argument.rename names).toTargetTable := by
  cases argument with
  | jumpTable span cases =>
      refine (allOf_repeats toCase_repeats cases).map fun cases => ?_
      cases cases with
      | none => rfl
      | some cases =>
          simp only [Option.map_some, Operand.rename, OperandValue.mapTargets, List.map_map]
          rfl
  | _ => exact Repeats.refuse _ _

theorem toOperand_repeats (place : Slot) (argument : Argument) :
    RepeatsFound (Operand.rename names.symbol) (argument.toOperand place)
      ((argument.rename names).toOperand place) := by
  cases place with
  | bitmask => exact toBitmask_repeats argument
  | targetTable => exact toTargetTable_repeats argument
  | paddedTable => exact toPaddedTable_repeats argument
  | number => exact read_repeats (Expr.toNumber_repeats names) (fun _ => rfl) argument
  | register => exact read_repeats (Expr.toRegister_repeats names) (fun _ => rfl) argument
  | byte | messageId =>
      exact read_repeats (Expr.toBounded_repeats names _ _) (fun _ => rfl) argument
  | string => exact read_repeats (Expr.toText_repeats names) (fun _ => rfl) argument
  | target => exact read_repeats (Expr.toTarget_repeats names) (fun _ => rfl) argument
  | expression => exact read_repeats (Expr.toTerms_repeats names) (fun _ => rfl) argument
  | flag | numberList | registerList | byteList => exact .pure rfl

theorem element_repeats {α β : Type} {result : α → β} {reader : Expr → Reporting (Option α)}
    {other : Expr → Reporting (Option β)}
    (h : ∀ expr, RepeatsFound result (reader expr) (other (expr.rename names)))
    (argument : Argument) :
    RepeatsFound result (element reader argument) (element other (argument.rename names)) := by
  refine (toExpr_repeats argument).bind fun expr => ?_
  cases expr with
  | none => exact .pure rfl
  | some expr => exact h expr

theorem toList_repeats (place : Slot) (arguments : List Argument) (span : Span) :
    RepeatsFound (Operand.rename names.symbol) (toList place arguments span)
      (toList place (arguments.map (rename names)) span) := by
  have hlist {α : Type} {reader : Expr → Reporting (Option α)} {toValue : List α → OperandValue}
      (h : ∀ expr, RepeatsFound id (reader expr) (reader (expr.rename names)))
      (hvalue : ∀ values, (toValue values).mapTargets (CodeTarget.rename names.symbol) =
        toValue values) :
      RepeatsFound (Operand.rename names.symbol)
        (do return (← allOf (element reader) arguments).map (⟨toValue ·, span⟩))
        (do
          let values ← allOf (element reader) (arguments.map (rename names))
          return values.map (⟨toValue ·, span⟩)) := by
    refine (allOf_repeats (element_repeats h) arguments).map fun values => ?_
    cases values with
    | none => rfl
    | some values => simp [Operand.rename, hvalue]
  simp only [toList, List.length_map]
  refine .ite Iff.rfl (Repeats.refuse _ _) ?_
  split
  · exact hlist (Expr.toNumber_repeats names) fun _ => rfl
  · exact hlist (Expr.toRegister_repeats names) fun _ => rfl
  · exact @hlist _ _ (fun values => .byteList (values.map fun value => value.toUInt32.toUInt8))
      (Expr.toBounded_repeats names _ _) fun _ => rfl

end Argument

variable {names}

/-- An operand in front of the others. -/
theorem Slot.join_repeats {others twins : Reporting (Option (List Operand))}
    (h : RepeatsFound (List.map (Operand.rename names.symbol)) others twins)
    (first : Option Operand) :
    RepeatsFound (List.map (Operand.rename names.symbol))
      (do
        let behind ← others
        return match first, behind with
          | some operand, some operands => some (operand :: operands)
          | _, _ => none)
      (do
        let behind ← twins
        return match first.map (Operand.rename names.symbol), behind with
          | some operand, some operands => some (operand :: operands)
          | _, _ => none) := by
  refine h.map fun behind => ?_
  cases first <;> cases behind <;> rfl

theorem Slot.fill_repeats (flags : List Flag) (span : Span) (slots : List Slot)
    (arguments : List Argument) :
    RepeatsFound (List.map (Operand.rename names.symbol)) (Slot.fill flags span slots arguments)
      (Slot.fill flags span slots (arguments.map (Argument.rename names))) := by
  induction slots generalizing arguments with
  | nil => exact .pure rfl
  | cons place rest ih =>
      simp only [Slot.fill, pure_bind]
      cases place with
      | flag name normal => exact Slot.join_repeats (ih arguments) (some _)
      | numberList | registerList | byteList =>
          exact (Argument.toList_repeats _ arguments span).bind fun first =>
            Slot.join_repeats (ih []) first
      | _ =>
          cases arguments with
          | nil => exact Slot.join_repeats (ih []) none
          | cons argument others =>
              exact (Argument.toOperand_repeats _ argument).bind fun first =>
                Slot.join_repeats (ih others) first

namespace Comparison

def rename (names : Names) (comparison : Comparison) : Comparison :=
  { comparison with
    left := comparison.left.rename names
    right := comparison.right.rename names }

theorem bitOf?_rename (expr : Expr) :
    bitOf? (expr.rename names) = (bitOf? expr).map (Expr.rename names) := by
  cases expr with
  | binary span operator left right =>
      cases operator with
      | shiftLeft =>
          cases left with
          | literal _ value =>
              by_cases hone : value = ⟨1, .integer⟩
              · subst hone
                rfl
              · rw [Expr.rename, Expr.rename, bitOf?_eq_none hone, bitOf?_eq_none hone,
                  Option.map_none]
          | _ => simp only [Expr.rename, bitOf?, Option.map_none]
      | _ => simp only [Expr.rename, bitOf?, Option.map_none]
  | _ => simp only [Expr.rename, bitOf?, Option.map_none]

theorem ofBinary?_rename (negated : Bool) (operator : BinaryOperator) (left right : Expr) :
    ofBinary? negated operator (left.rename names) (right.rename names) =
      (ofBinary? negated operator left right).map (rename names) := by
  simp only [ofBinary?, bitOf?_rename]
  split
  · rfl
  · cases bitOf? right <;> rfl
  · rfl

theorem ofExpr_repeats (negated : Bool) (expr : Expr) :
    RepeatsFound (rename names) (ofExpr negated expr) (ofExpr negated (expr.rename names)) := by
  fun_induction ofExpr negated expr with
  | case1 => exact .pure rfl
  | case2 _ _ _ ih =>
      simp only [Expr.rename, ofExpr]
      exact ih
  | case3 negated span operator left right comparison hbinary =>
      simp only [Expr.rename, ofExpr, ofBinary?_rename, hbinary]
      exact .pure rfl
  | case4 => exact Repeats.refuse _ _
  | case5 => exact Repeats.refuse _ _

end Comparison

namespace Statement

theorem flagsOf_rename (arguments : List Argument) :
    flagsOf (arguments.map (Argument.rename names)) = flagsOf arguments := by
  induction arguments with
  | nil => rfl
  | cons first rest ih =>
      simp only [flagsOf, List.map_cons, List.filterMap_cons] at ih ⊢
      cases first <;> simp [Argument.rename, ih]

theorem positionalOf_rename (arguments : List Argument) :
    positionalOf (arguments.map (Argument.rename names)) =
      (positionalOf arguments).map (Argument.rename names) := by
  simp only [positionalOf, List.filter_map]
  congr 2
  funext argument
  cases argument <;> rfl

end Statement

namespace Form

/-- A type byte with its operands, which have other names. -/
def renameOperands (names : Names) (entry : UInt8 × List Operand) : UInt8 × List Operand :=
  (entry.1, entry.2.map (Operand.rename names.symbol))

theorem fill_repeats (subtype : UInt8) (flags : List Flag) (span : Span)
    (slots : List Slot) (positional : List Argument) :
    RepeatsFound (renameOperands names)
      (do
        let operands ← Slot.fill flags span slots positional
        return operands.map fun operands => (subtype, operands))
      (do
        let operands ← Slot.fill flags span slots (positional.map (Argument.rename names))
        return operands.map fun operands => (subtype, operands)) := by
  refine (Slot.fill_repeats flags span slots positional).map fun operands => ?_
  cases operands <;> rfl

theorem typedOperands_repeats (form : Form) (mnemonic : Bytes) (span : Span)
    (positional : List Argument) :
    RepeatsFound (renameOperands names) (form.typedOperands mnemonic span positional)
      (form.typedOperands mnemonic span (positional.map (Argument.rename names))) := by
  simp only [typedOperands, List.length_map]
  exact .ite Iff.rfl (fill_repeats _ _ _ _ _)
    (.ite Iff.rfl (fill_repeats _ _ _ _ _) (Repeats.refuse _ _))

theorem comparisonOperands_repeats (comparison : Comparison) (destination : Argument) :
    RepeatsFound (renameOperands names) (comparisonOperands comparison destination)
      (comparisonOperands (comparison.rename names) (destination.rename names)) := by
  simp only [comparisonOperands, Comparison.rename, Expr.span_rename]
  refine (Expr.toNumber_repeats names _).bind fun left =>
    (Expr.toNumber_repeats names _).bind fun right =>
      (Argument.toOperand_repeats .target destination).map fun destination => ?_
  cases left <;> cases right <;> cases destination <;> rfl

theorem conditionalOperands_repeats (mnemonic : Bytes) (span : Span) (positional : List Argument) :
    RepeatsFound (renameOperands names) (conditionalOperands mnemonic span positional)
      (conditionalOperands mnemonic span (positional.map (Argument.rename names))) := by
  match positional with
  | [condition, destination] =>
      cases condition with
      | expression _ condition =>
          refine (Comparison.ofExpr_repeats false condition).bind fun comparison => ?_
          cases comparison with
          | none => exact .pure rfl
          | some comparison => exact comparisonOperands_repeats comparison destination
      | _ => exact Repeats.refuse _ _
  | [] => exact Repeats.refuse _ _
  | [condition] => cases condition <;> exact Repeats.refuse _ _
  | first :: _ :: _ :: rest => cases first <;> exact Repeats.refuse _ _

theorem plainOperands_repeats (form : Form) (mnemonic : Bytes) (flags : List Flag) (span : Span)
    (positional : List Argument) :
    RepeatsFound (renameOperands names) (form.plainOperands mnemonic flags span positional)
      (form.plainOperands mnemonic flags span (positional.map (Argument.rename names))) := by
  simp only [plainOperands, List.length_map]
  exact .ite Iff.rfl (Repeats.refuse _ _) (fill_repeats _ _ _ _ _)

theorem operands_repeats (form : Form) (mnemonic : Bytes) (flags : List Flag) (span : Span)
    (positional : List Argument) :
    RepeatsFound (renameOperands names) (form.operands mnemonic flags span positional)
      (form.operands mnemonic flags span (positional.map (Argument.rename names))) := by
  simp only [operands]
  split
  · exact form.typedOperands_repeats mnemonic span positional
  · exact conditionalOperands_repeats mnemonic span positional
  · exact form.plainOperands_repeats mnemonic flags span positional

theorem argumentCount_rename (operands : List Operand) :
    argumentCount (operands.map (Operand.rename names.symbol)) = argumentCount operands := by
  match operands with
  | [] | [_] => rfl
  | _ :: ⟨value, span⟩ :: _ => cases value <;> rfl

theorem checkCall_repeats (positional : List Argument) (operands : List Operand) :
    Repeats id (checkCall positional operands)
      (checkCall (positional.map (Argument.rename names))
        (operands.map (Operand.rename names.symbol))) := by
  cases positional with
  | nil => exact .pure rfl
  | cons first rest =>
      cases first with
      | expression _ expr =>
          cases expr with
          | codeAddress span name kind taken =>
              cases kind with
              | function =>
                  simp only [List.map_cons, Argument.rename, Expr.rename, checkCall,
                    argumentCount_rename]
                  exact .ite Iff.rfl (.pure rfl)
                    (Repeats.behind_report _ (Silently.pure trivial : Silently _ fun _ => True))
              | _ => exact .pure rfl
          | _ => exact .pure rfl
      | _ => exact .pure rfl

theorem instruction?_repeats (form : Form) (mnemonic : Bytes) (span : Span)
    (arguments : List Argument) :
    RepeatsFound (Instruction.rename names.symbol) (form.instruction? mnemonic span arguments)
      (form.instruction? mnemonic span (arguments.map (Argument.rename names))) := by
  simp only [instruction?, Statement.flagsOf_rename, Statement.positionalOf_rename]
  refine (Repeats.of_erases fun _ => Statement.checkFlags_erases form mnemonic [] true _).bind
    fun flags => ?_
  cases flags with
  | none => exact .pure rfl
  | some flags =>
      refine (form.operands_repeats mnemonic flags span _).bind fun operands => ?_
      cases operands with
      | none => exact .pure rfl
      | some operands =>
          obtain ⟨subtype, operands⟩ := operands
          have hresult (fits : Bool) : RepeatsFound (Instruction.rename names.symbol)
              (return if fits then some ⟨form.opcode, subtype, operands, span⟩ else none)
              (return if fits then
                some ⟨form.opcode, subtype, operands.map (Operand.rename names.symbol), span⟩
              else none) :=
            .pure (by cases fits <;> rfl)
          exact .ite Iff.rfl ((checkCall_repeats _ operands).bind hresult) (hresult true)

end Form

namespace Routine

theorem returnFrom_rename (routine : Routine) (span : Span) :
    (routine.rename names).returnFrom span =
      (routine.returnFrom span).map (Instruction.rename names.symbol) := by
  rw [returnFrom, returnFrom, List.map_append,
    apply_ite (List.map (Instruction.rename names.symbol))]
  rfl

theorem prologue_rename (routine : Routine) :
    (routine.rename names).prologue = routine.prologue.map (Instruction.rename names.symbol) := by
  rw [prologue, prologue, apply_ite (List.map (Instruction.rename names.symbol))]
  rfl

theorem tail_rename (routine : Routine) :
    (routine.rename names).tail = routine.tail.map (Instruction.rename names.symbol) := by
  have hreturn := @returnFrom_rename names routine routine.span
  have hkind : (routine.rename names).kind = routine.kind := rfl
  rw [tail, tail, hkind]
  cases routine.kind with
  | script => rfl
  | function => exact hreturn
  | subroutine => rfl

/-- Instructions with what they do to control, under other names. -/
def renameLowered (names : Names) (entry : List Instruction × Bool) : List Instruction × Bool :=
  (entry.1.map (Instruction.rename names.symbol), entry.2)

theorem lowerInstruction_repeats (routine : Routine) (span : Span) (mnemonic : Bytes)
    (arguments : List Argument) :
    Repeats (renameLowered names) (routine.lowerInstruction span mnemonic arguments)
      ((routine.rename names).lowerInstruction span mnemonic
        (arguments.map (Argument.rename names))) := by
  simp only [lowerInstruction]
  split
  · exact Repeats.behind_report _ (Silently.pure trivial : Silently _ fun _ => True)
  · rename_i form hform
    refine .ite Iff.rfl (.pure ?_)
      ((form.instruction?_repeats mnemonic span arguments).map fun instruction => ?_)
    · rw [returnFrom_rename]
      rfl
    · cases instruction <;> rfl

/-- A code unit with what its end does to control, under other names. -/
def renameUnit (names : Names) (entry : CodeUnit × Bool) : CodeUnit × Bool :=
  (entry.1.rename names.symbol, entry.2)

theorem lowerStatements_repeats (routine : Routine) (code : CodeUnit) (ended : Bool)
    (statements : List Statement) :
    Repeats (renameUnit names) (routine.lowerStatements code ended statements)
      ((routine.rename names).lowerStatements (code.rename names.symbol) ended
        (statements.map (Statement.rename names))) := by
  induction statements generalizing code ended with
  | nil => exact .pure rfl
  | cons statement rest ih =>
      cases statement with
      | label span name =>
          simp only [List.map_cons, Statement.rename, lowerStatements]
          rw [← CodeUnit.rename_placeLabel]
          exact ih _ _
      | instruction span mnemonic arguments =>
          simp only [List.map_cons, Statement.rename, lowerStatements]
          refine (routine.lowerInstruction_repeats span mnemonic arguments).bind fun lowered => ?_
          obtain ⟨instructions, ended⟩ := lowered
          simp only [renameLowered]
          rw [← CodeUnit.rename_append]
          exact ih _ _

/-- A routine without a complaint is lowered under other names to its code under these. -/
theorem lower_rename {routine : Routine} (hquiet : routine.lower.2 = []) :
    (routine.rename names).lower = (routine.lower.1.rename names.symbol, []) := by
  let opening := ((CodeUnit.empty routine.kind routine.name).placeLabel routine.name
    routine.span).append routine.prologue
  have hopening : ((CodeUnit.empty (routine.rename names).kind
      (routine.rename names).name).placeLabel
      (routine.rename names).name (routine.rename names).span).append
        (routine.rename names).prologue = opening.rename names.symbol := by
    rw [CodeUnit.rename_append, CodeUnit.rename_placeLabel, prologue_rename]
    rfl
  have hquiet : (routine.lowerStatements opening false routine.statements []).2 = [] := hquiet
  have hbody := (@lowerStatements_repeats names routine opening false routine.statements []).2
    (congrArg List.length hquiet)
  have hstatements : (routine.rename names).statements =
      routine.statements.map (Statement.rename names) := rfl
  simp only [lower, StateT.run, hopening, hstatements, hbody, renameUnit, tail_rename,
    ← CodeUnit.rename_append, ← apply_ite (CodeUnit.rename names.symbol)]
  exact congrArg (Prod.mk _) hquiet

end Routine

end NovelAsm
