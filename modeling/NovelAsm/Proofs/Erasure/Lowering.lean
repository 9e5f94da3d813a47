import NovelAsm.CodeUnit.Lowering
import NovelAsm.Proofs.Erasure.Routines

/-!
Code units without places. A routine is lowered to the same instructions and labels wherever
it stands, and as much is reported about its operands.
-/

namespace NovelAsm

variable {front : Diagnostics}

/-- A code address without its place in the text. -/
def CodeTarget.bare (destination : CodeTarget) : CodeTarget := { destination with span := .origin }

/-- An operand without places. -/
def Operand.bare (operand : Operand) : Operand :=
  ⟨operand.value.mapTargets CodeTarget.bare, .origin⟩

/-- An instruction without places. -/
def Instruction.bare (instruction : Instruction) : Instruction :=
  { instruction with operands := instruction.operands.map Operand.bare, span := .origin }

/-- A label without its place. -/
def LabelMark.bare (label : LabelMark) : LabelMark := { label with span := .origin }

namespace CodeUnit

/-- A code unit without places. -/
def bare (unit : CodeUnit) : CodeUnit :=
  { unit with
    instructions := unit.instructions.map Instruction.bare
    labels := unit.labels.map LabelMark.bare }

theorem bare_append (unit : CodeUnit) (instructions : List Instruction) :
    (unit.append instructions).bare = unit.bare.append (instructions.map Instruction.bare) := by
  simp [append, bare]

theorem bare_placeLabel (unit : CodeUnit) (name : Bytes) (span : Span) :
    (unit.placeLabel name span).bare = unit.bare.placeLabel name .origin := by
  simp [placeLabel, bare, LabelMark.bare]

end CodeUnit

namespace OperandProblem

variable {α β : Type}

theorem report_erases (problem : OperandProblem) (span : Span) :
    Erases (Diagnostics.bareBehind front) id (problem.report span) (problem.report .origin) :=
  Reporting.report_erases (.error problem.code problem.message span)

theorem refuse_erases (problem : OperandProblem) (span : Span) (result : α → β) :
    Erases (Diagnostics.bareBehind front) (Option.map result) (problem.refuse span)
      (problem.refuse .origin) :=
  (report_erases problem span).bind fun _ => Erases.pure rfl

end OperandProblem

/-- A step that may have no result. -/
abbrev ErasesFound {α β : Type} (front : Diagnostics) (result : α → β) (step : Reporting (Option α))
    (other : Reporting (Option β)) : Prop :=
  Erases (Diagnostics.bareBehind front) (Option.map result) step other

namespace Expr

theorem toNumber_erases (expr : Expr) : ErasesFound front id expr.toNumber expr.bare.toNumber := by
  simp only [toNumber, span_bare]
  refine (compute_erases expr).bind fun computation => Erases.ite Iff.rfl
    (fun _ => Erases.pure rfl) fun _ => ?_
  rw [Computation.number?_bare]
  cases computation.number? with
  | some number => exact Erases.pure rfl
  | none => exact OperandProblem.refuse_erases _ _ _

theorem toRegister_erases (expr : Expr) :
    ErasesFound front id expr.toRegister expr.bare.toRegister := by
  cases expr with
  | register | error =>
      simp only [bare, toRegister]
      exact Erases.pure rfl
  | _ =>
      simp only [bare, toRegister, span]
      exact OperandProblem.refuse_erases _ _ _

theorem toBounded_erases (limit : Int) (problem : OperandProblem) (expr : Expr) :
    ErasesFound front id (expr.toBounded limit problem) (expr.bare.toBounded limit problem) := by
  simp only [toBounded, span_bare]
  refine (compute_erases expr).bind fun computation => Erases.ite Iff.rfl
    (fun _ => Erases.pure rfl) fun _ => ?_
  rw [Computation.constant?_bare]
  cases computation.constant? with
  | some value =>
      exact Erases.ite Iff.rfl (fun _ => Erases.pure rfl)
        fun _ => OperandProblem.refuse_erases _ _ _
  | none => exact OperandProblem.refuse_erases _ _ _

theorem toText_erases (expr : Expr) : ErasesFound front id expr.toText expr.bare.toText := by
  cases expr with
  | string | error =>
      simp only [bare, toText]
      exact Erases.pure rfl
  | _ =>
      simp only [bare, toText, span]
      exact OperandProblem.refuse_erases _ _ _

theorem toTarget_erases (expr : Expr) :
    ErasesFound front CodeTarget.bare expr.toTarget expr.bare.toTarget := by
  cases expr with
  | codeAddress | error =>
      simp only [bare, toTarget]
      exact Erases.pure rfl
  | literal span value =>
      obtain ⟨number, kind⟩ := value
      cases kind with
      | integer =>
          simp only [bare, toTarget]
          exact Erases.pure rfl
      | real =>
          simp only [bare, toTarget, Expr.span]
          exact OperandProblem.refuse_erases _ _ _
  | _ =>
      simp only [bare, toTarget, span]
      exact OperandProblem.refuse_erases _ _ _

theorem toTerms_erases (expr : Expr) : ErasesFound front id expr.toTerms expr.bare.toTerms := by
  refine (compute_erases expr).map fun computation => ?_
  simp only [Computation.isValid_bare, Computation.toTerms_bare, Option.map_id]
  rfl

end Expr

theorem allOf_erases {α β γ δ : Type} {result : α → β} {outcome : γ → δ}
    {step : α → Reporting (Option γ)} {other : β → Reporting (Option δ)}
    (h : ∀ value, ErasesFound front outcome (step value) (other (result value))) (items : List α) :
    ErasesFound front (List.map outcome) (allOf step items) (allOf other (items.map result)) := by
  induction items with
  | nil => exact Erases.pure rfl
  | cons first rest ih =>
      simp only [List.map_cons, allOf]
      refine (h first).bind fun value => ih.map fun values => ?_
      cases value <;> cases values <;> rfl

namespace Argument

variable {α β γ : Type}

theorem toExpr_erases (argument : Argument) :
    ErasesFound front Expr.bare argument.toExpr argument.bare.toExpr := by
  cases argument with
  | expression => exact Erases.pure rfl
  | flag | array | jumpTable => exact OperandProblem.refuse_erases _ _ _

theorem read_erases {result : α → β} {reader : Expr → Reporting (Option α)}
    {other : Expr → Reporting (Option β)} {toValue : α → OperandValue}
    {toOther : β → OperandValue}
    (h : ∀ expr, ErasesFound front result (reader expr) (other expr.bare))
    (hvalue : ∀ value, toOther (result value) = (toValue value).mapTargets CodeTarget.bare)
    (argument : Argument) :
    ErasesFound front Operand.bare (argument.read reader toValue)
      (argument.bare.read other toOther) := by
  refine (toExpr_erases argument).bind fun expr => ?_
  cases expr with
  | none => exact Erases.pure rfl
  | some expr =>
      simp only [Option.map_some, Expr.span_bare]
      refine (h expr).map fun value => ?_
      cases value with
      | none => rfl
      | some value => simp [Operand.bare, hvalue]

theorem toBitmask_erases (argument : Argument) :
    ErasesFound front Operand.bare argument.toBitmask argument.bare.toBitmask := by
  cases argument with
  | array span elements =>
      simp only [bare, toBitmask, List.length_map]
      refine Erases.ite Iff.rfl (fun _ => OperandProblem.refuse_erases _ _ _) fun _ => ?_
      refine (allOf_erases Expr.toNumber_erases elements).map fun numbers => ?_
      cases numbers with
      | none => rfl
      | some numbers => simp [Operand.bare, OperandValue.mapTargets]
  | _ => exact OperandProblem.refuse_erases _ _ _

theorem toPaddedTable_erases (argument : Argument) :
    ErasesFound front Operand.bare argument.toPaddedTable argument.bare.toPaddedTable := by
  cases argument with
  | array span elements =>
      simp only [bare, toPaddedTable]
      refine (allOf_erases Expr.toNumber_erases elements).map fun numbers => ?_
      cases numbers with
      | none => rfl
      | some numbers => simp [Operand.bare, OperandValue.mapTargets]
  | _ => exact OperandProblem.refuse_erases _ _ _

/-- A key with its target, without places. -/
def bareCase (entry : Int32 × CodeTarget) : Int32 × CodeTarget := (entry.1, entry.2.bare)

theorem toCase_erases (tableCase : TableCase) :
    ErasesFound front bareCase (toCase tableCase) (toCase tableCase.bare) := by
  refine (Expr.toBounded_erases _ _ tableCase.key).bind fun key =>
    (Expr.toTarget_erases tableCase.target).map fun destination => ?_
  cases key <;> cases destination <;> rfl

theorem toTargetTable_erases (argument : Argument) :
    ErasesFound front Operand.bare argument.toTargetTable argument.bare.toTargetTable := by
  cases argument with
  | jumpTable span cases =>
      simp only [bare, toTargetTable]
      refine (allOf_erases toCase_erases cases).map fun cases => ?_
      cases cases with
      | none => rfl
      | some cases =>
          simp only [Option.map_some, Operand.bare, OperandValue.mapTargets, List.map_map]
          rfl
  | _ => exact OperandProblem.refuse_erases _ _ _

theorem toOperand_erases (place : Slot) (argument : Argument) :
    ErasesFound front Operand.bare (argument.toOperand place) (argument.bare.toOperand place) := by
  cases place with
  | bitmask => exact toBitmask_erases argument
  | targetTable => exact toTargetTable_erases argument
  | paddedTable => exact toPaddedTable_erases argument
  | number => exact read_erases Expr.toNumber_erases (fun _ => rfl) argument
  | register => exact read_erases Expr.toRegister_erases (fun _ => rfl) argument
  | byte | messageId => exact read_erases (Expr.toBounded_erases _ _) (fun _ => rfl) argument
  | string => exact read_erases Expr.toText_erases (fun _ => rfl) argument
  | target => exact read_erases Expr.toTarget_erases (fun _ => rfl) argument
  | expression => exact read_erases Expr.toTerms_erases (fun _ => rfl) argument
  | flag | numberList | registerList | byteList => exact Erases.pure rfl

theorem element_erases {result : α → β} {reader : Expr → Reporting (Option α)}
    {other : Expr → Reporting (Option β)}
    (h : ∀ expr, ErasesFound front result (reader expr) (other expr.bare))
    (argument : Argument) :
    ErasesFound front result (element reader argument) (element other argument.bare) := by
  refine (toExpr_erases argument).bind fun expr => ?_
  cases expr with
  | none => exact Erases.pure rfl
  | some expr => exact h expr

theorem toList_erases (place : Slot) (arguments : List Argument) (span : Span) :
    ErasesFound front Operand.bare (toList place arguments span)
      (toList place (arguments.map bare) .origin) := by
  have hlist {α : Type} {reader : Expr → Reporting (Option α)} {toValue : List α → OperandValue}
      (h : ∀ expr, ErasesFound front id (reader expr) (reader expr.bare))
      (hvalue : ∀ values, (toValue values).mapTargets CodeTarget.bare = toValue values) :
      ErasesFound front Operand.bare
        (do return (← allOf (element reader) arguments).map (⟨toValue ·, span⟩))
        (do return (← allOf (element reader) (arguments.map bare)).map (⟨toValue ·, .origin⟩)) := by
    refine (allOf_erases (element_erases h) arguments).map fun values => ?_
    cases values with
    | none => rfl
    | some values => simp [Operand.bare, hvalue]
  simp only [toList, List.length_map]
  refine Erases.ite Iff.rfl (fun _ => OperandProblem.refuse_erases _ _ _) fun _ => ?_
  split
  · exact hlist Expr.toNumber_erases fun _ => rfl
  · exact hlist Expr.toRegister_erases fun _ => rfl
  · refine @hlist _ _ (fun values => .byteList (values.map fun value => value.toUInt32.toUInt8))
      (Expr.toBounded_erases _ _) fun _ => rfl

end Argument

/-- An operand in front of the others, without places. -/
theorem Slot.join_erases {others twins : Reporting (Option (List Operand))}
    (h : ErasesFound front (List.map Operand.bare) others twins) (first : Option Operand) :
    ErasesFound front (List.map Operand.bare)
      (do
        let behind ← others
        return match first, behind with
          | some operand, some operands => some (operand :: operands)
          | _, _ => none)
      (do
        let behind ← twins
        return match first.map Operand.bare, behind with
          | some operand, some operands => some (operand :: operands)
          | _, _ => none) := by
  refine h.map fun behind => ?_
  cases first <;> cases behind <;> rfl

theorem Slot.fill_erases (flags : List Flag) (span : Span) (slots : List Slot)
    (arguments : List Argument) :
    ErasesFound front (List.map Operand.bare) (Slot.fill flags span slots arguments)
      (Slot.fill flags .origin slots (arguments.map Argument.bare)) := by
  induction slots generalizing arguments with
  | nil => exact Erases.pure rfl
  | cons place rest ih =>
      simp only [Slot.fill, pure_bind]
      cases place with
      | flag name normal => exact Slot.join_erases (ih arguments) (some _)
      | numberList | registerList | byteList =>
          exact (Argument.toList_erases _ arguments span).bind fun first =>
            Slot.join_erases (ih []) first
      | _ =>
          cases arguments with
          | nil => exact Slot.join_erases (ih []) none
          | cons argument others =>
              exact (Argument.toOperand_erases _ argument).bind fun first =>
                Slot.join_erases (ih others) first

namespace Comparison

/-- A comparison without places. -/
def bare (comparison : Comparison) : Comparison :=
  { comparison with left := comparison.left.bare, right := comparison.right.bare }

theorem bitOf?_eq_none {span place : Span} {value : Value} {bit : Expr}
    (h : value ≠ ⟨1, .integer⟩) :
    bitOf? (.binary span .shiftLeft (.literal place value) bit) = none := by
  rw [bitOf?]
  rintro _ _ _ heq
  injection heq with _ _ heq
  injection heq with _ heq
  exact h heq

theorem bitOf?_bare (expr : Expr) : bitOf? expr.bare = (bitOf? expr).map Expr.bare := by
  cases expr with
  | binary span operator left right =>
      cases operator with
      | shiftLeft =>
          cases left with
          | literal _ value =>
              -- the mask of a single bit is told by its value, which has no place
              by_cases hone : value = ⟨1, .integer⟩
              · subst hone
                rfl
              · rw [Expr.bare, Expr.bare, bitOf?_eq_none hone, bitOf?_eq_none hone, Option.map_none]
          | _ => simp only [Expr.bare, bitOf?, Option.map_none]
      | _ => simp only [Expr.bare, bitOf?, Option.map_none]
  | _ => simp only [Expr.bare, bitOf?, Option.map_none]

theorem ofBinary?_bare (negated : Bool) (operator : BinaryOperator) (left right : Expr) :
    ofBinary? negated operator left.bare right.bare =
      (ofBinary? negated operator left right).map bare := by
  simp only [ofBinary?, bitOf?_bare]
  split
  · rfl
  · cases bitOf? right <;> rfl
  · rfl

theorem ofExpr_erases (negated : Bool) (expr : Expr) :
    ErasesFound front bare (ofExpr negated expr) (ofExpr negated expr.bare) := by
  fun_induction ofExpr negated expr with
  | case1 =>
      simp only [Expr.bare, ofExpr]
      exact Erases.pure rfl
  | case2 _ _ _ ih =>
      simp only [Expr.bare, ofExpr]
      exact ih
  | case3 negated span operator left right comparison hbinary =>
      simp only [Expr.bare, ofExpr, ofBinary?_bare, hbinary]
      exact Erases.pure rfl
  | case4 negated span operator left right hbinary =>
      simp only [Expr.bare, ofExpr, ofBinary?_bare, hbinary]
      exact OperandProblem.refuse_erases _ _ _
  | case5 negated expr herror hnot hbinary =>
      cases expr with
      | error => exact absurd rfl (herror _)
      | binary => exact absurd rfl (hbinary _ _ _ _)
      | unary span operator operand =>
          cases operator with
          | logicalNot => exact absurd rfl (hnot _ _)
          | _ =>
              simp only [Expr.bare, ofExpr]
              exact OperandProblem.refuse_erases _ _ _
      | _ =>
          simp only [Expr.bare, ofExpr]
          exact OperandProblem.refuse_erases _ _ _

end Comparison

namespace Statement

/-- A flag without its place. -/
def bareFlag (entry : Flag × Span) : Flag × Span := (entry.1, .origin)

theorem flagsOf_bare (arguments : List Argument) :
    flagsOf (arguments.map Argument.bare) = (flagsOf arguments).map bareFlag := by
  induction arguments with
  | nil => rfl
  | cons first rest ih =>
      simp only [flagsOf, List.map_cons, List.filterMap_cons] at ih ⊢
      cases first <;> simp [Argument.bare, ih, bareFlag]

theorem positionalOf_bare (arguments : List Argument) :
    positionalOf (arguments.map Argument.bare) = (positionalOf arguments).map Argument.bare := by
  simp only [positionalOf, List.filter_map]
  congr 2
  funext argument
  cases argument <;> rfl

theorem checkFlags_erases (form : Form) (mnemonic : Bytes) (seen : List Flag) (allRight : Bool)
    (flags : List (Flag × Span)) :
    Erases (Diagnostics.bareBehind front) id (checkFlags form mnemonic seen allRight flags)
      (checkFlags form mnemonic seen allRight (flags.map bareFlag)) := by
  induction flags generalizing seen allRight with
  | nil => exact Erases.pure rfl
  | cons first rest ih =>
      obtain ⟨flag, span⟩ := first
      simp only [List.map_cons, bareFlag, checkFlags]
      split
      · exact ih _ _
      · exact (OperandProblem.report_erases _ _).bind fun _ => ih _ _

end Statement

namespace Form

/-- A type byte with its operands, without places. -/
def bareOperands (entry : UInt8 × List Operand) : UInt8 × List Operand :=
  (entry.1, entry.2.map Operand.bare)

/-- Operands as a step finds them, without places. -/
abbrev FindsOperands (front : Diagnostics)
    (step other : Reporting (Option (UInt8 × List Operand))) : Prop :=
  ErasesFound front bareOperands step other

theorem fill_erases (subtype : UInt8) (flags : List Flag) (span : Span)
    (slots : List Slot) (positional : List Argument) :
    FindsOperands front
      (do
        let operands ← Slot.fill flags span slots positional
        return operands.map fun operands => (subtype, operands))
      (do
        let operands ← Slot.fill flags .origin slots (positional.map Argument.bare)
        return operands.map fun operands => (subtype, operands)) := by
  refine (Slot.fill_erases flags span slots positional).map fun operands => ?_
  cases operands <;> rfl

theorem typedOperands_erases (form : Form) (mnemonic : Bytes) (span : Span)
    (positional : List Argument) :
    FindsOperands front (form.typedOperands mnemonic span positional)
      (form.typedOperands mnemonic .origin (positional.map Argument.bare)) := by
  simp only [typedOperands, List.length_map]
  refine Erases.ite Iff.rfl (fun _ => fill_erases _ _ _ _ _) fun _ => Erases.ite Iff.rfl
    (fun _ => fill_erases _ _ _ _ _) fun _ => OperandProblem.refuse_erases _ _ _

theorem comparisonOperands_erases (comparison : Comparison) (destination : Argument) :
    FindsOperands front (comparisonOperands comparison destination)
      (comparisonOperands comparison.bare destination.bare) := by
  simp only [comparisonOperands, Comparison.bare, Expr.span_bare]
  refine (Expr.toNumber_erases _).bind fun left => (Expr.toNumber_erases _).bind fun right =>
    (Argument.toOperand_erases .target destination).map fun destination => ?_
  cases left <;> cases right <;> cases destination <;> rfl

theorem conditionalOperands_erases (mnemonic : Bytes) (span : Span) (positional : List Argument) :
    FindsOperands front (conditionalOperands mnemonic span positional)
      (conditionalOperands mnemonic .origin (positional.map Argument.bare)) := by
  match positional with
  | [condition, destination] =>
      cases condition with
      | expression _ condition =>
          refine (Comparison.ofExpr_erases false condition).bind fun comparison => ?_
          cases comparison with
          | none => exact Erases.pure rfl
          | some comparison => exact comparisonOperands_erases comparison destination
      | _ => exact OperandProblem.refuse_erases _ _ _
  | [] => exact OperandProblem.refuse_erases _ _ _
  | [condition] => cases condition <;> exact OperandProblem.refuse_erases _ _ _
  | first :: _ :: _ :: rest =>
      have hrefuse (count : Nat) : FindsOperands front
          ((OperandProblem.operandCount mnemonic 2 count).refuse span)
          ((OperandProblem.operandCount mnemonic 2 count).refuse .origin) :=
        OperandProblem.refuse_erases _ _ _
      cases first <;>
        simpa only [conditionalOperands, Argument.bare, List.map_cons, List.length_cons,
          List.length_map] using hrefuse (rest.length + 3)

theorem plainOperands_erases (form : Form) (mnemonic : Bytes) (flags : List Flag) (span : Span)
    (positional : List Argument) :
    FindsOperands front (form.plainOperands mnemonic flags span positional)
      (form.plainOperands mnemonic flags .origin (positional.map Argument.bare)) := by
  simp only [plainOperands, List.length_map]
  exact Erases.ite Iff.rfl (fun _ => OperandProblem.refuse_erases _ _ _)
    fun _ => fill_erases _ _ _ _ _

theorem operands_erases (form : Form) (mnemonic : Bytes) (flags : List Flag) (span : Span)
    (positional : List Argument) :
    FindsOperands front (form.operands mnemonic flags span positional)
      (form.operands mnemonic flags .origin (positional.map Argument.bare)) := by
  simp only [operands]
  split
  · exact form.typedOperands_erases mnemonic span positional
  · exact conditionalOperands_erases mnemonic span positional
  · exact form.plainOperands_erases mnemonic flags span positional

theorem argumentCount_bare (operands : List Operand) :
    argumentCount (operands.map Operand.bare) = argumentCount operands := by
  match operands with
  | [] | [_] => rfl
  | _ :: ⟨value, span⟩ :: _ => cases value <;> rfl

theorem checkCall_erases (positional : List Argument) (operands : List Operand) :
    Erases (Diagnostics.bareBehind front) id (checkCall positional operands)
      (checkCall (positional.map Argument.bare) (operands.map Operand.bare)) := by
  cases positional with
  | nil => exact Erases.pure rfl
  | cons first rest =>
      cases first with
      | expression _ expr =>
          cases expr with
          | codeAddress span name kind taken =>
              cases kind with
              | function =>
                  simp only [List.map_cons, Argument.bare, Expr.bare, checkCall,
                    argumentCount_bare]
                  exact Erases.ite Iff.rfl (fun _ => Erases.pure rfl) fun _ =>
                    (OperandProblem.report_erases _ _).bind fun _ => Erases.pure rfl
              | _ =>
                  simp only [List.map_cons, Argument.bare, Expr.bare, checkCall]
                  exact Erases.pure rfl
          | _ =>
              simp only [List.map_cons, Argument.bare, Expr.bare, checkCall]
              exact Erases.pure rfl
      | _ => exact Erases.pure rfl

theorem instruction?_erases (form : Form) (mnemonic : Bytes) (span : Span)
    (arguments : List Argument) :
    ErasesFound front Instruction.bare (form.instruction? mnemonic span arguments)
      (form.instruction? mnemonic .origin (arguments.map Argument.bare)) := by
  simp only [instruction?, Statement.flagsOf_bare, Statement.positionalOf_bare]
  refine (Statement.checkFlags_erases form mnemonic [] true _).bind fun flags => ?_
  cases flags with
  | none => exact Erases.pure rfl
  | some flags =>
      refine (form.operands_erases mnemonic flags span _).bind fun operands => ?_
      cases operands with
      | none => exact Erases.pure rfl
      | some operands =>
          obtain ⟨subtype, operands⟩ := operands
          have hresult (fits : Bool) : ErasesFound front Instruction.bare
              (return if fits then some ⟨form.opcode, subtype, operands, span⟩ else none)
              (return if fits then
                some ⟨form.opcode, subtype, operands.map Operand.bare, .origin⟩ else none) :=
            Erases.pure (by cases fits <;> rfl)
          exact Erases.ite Iff.rfl (fun _ => (checkCall_erases _ operands).bind hresult)
            fun _ => hresult true

end Form

namespace Routine

theorem returnFrom_bare (routine : Routine) (span : Span) :
    routine.bare.returnFrom .origin = (routine.returnFrom span).map Instruction.bare := by
  rw [returnFrom, returnFrom, List.map_append, apply_ite (List.map Instruction.bare)]
  rfl

theorem prologue_bare (routine : Routine) :
    routine.bare.prologue = routine.prologue.map Instruction.bare := by
  rw [prologue, prologue, apply_ite (List.map Instruction.bare)]
  rfl

theorem tail_bare (routine : Routine) : routine.bare.tail = routine.tail.map Instruction.bare := by
  have hreturn := returnFrom_bare routine routine.span
  have hkind : routine.bare.kind = routine.kind := rfl
  rw [tail, tail, hkind]
  cases routine.kind with
  | script => rfl
  | function => exact hreturn
  | subroutine => rfl

/-- Instructions with what they do to control, without places. -/
def bareLowered (entry : List Instruction × Bool) : List Instruction × Bool :=
  (entry.1.map Instruction.bare, entry.2)

theorem lowerInstruction_erases (routine : Routine) (span : Span) (mnemonic : Bytes)
    (arguments : List Argument) :
    Erases (Diagnostics.bareBehind front) bareLowered
      (routine.lowerInstruction span mnemonic arguments)
      (routine.bare.lowerInstruction .origin mnemonic (arguments.map Argument.bare)) := by
  simp only [lowerInstruction]
  split
  · exact (OperandProblem.report_erases _ _).bind fun _ => Erases.pure rfl
  · rename_i form hform
    refine Erases.ite Iff.rfl (fun _ => Erases.pure ?_) fun _ =>
      (form.instruction?_erases mnemonic span arguments).map fun instruction => ?_
    · rw [returnFrom_bare routine span]
      rfl
    · cases instruction <;> rfl

/-- A code unit with what its end does to control, without places. -/
def bareUnit (entry : CodeUnit × Bool) : CodeUnit × Bool := (entry.1.bare, entry.2)

theorem lowerStatements_erases (routine : Routine) (code : CodeUnit) (ended : Bool)
    (statements : List Statement) :
    Erases (Diagnostics.bareBehind front) bareUnit (routine.lowerStatements code ended statements)
      (routine.bare.lowerStatements code.bare ended (statements.map Statement.bare)) := by
  induction statements generalizing code ended with
  | nil => exact Erases.pure rfl
  | cons statement rest ih =>
      cases statement with
      | label span name =>
          simp only [List.map_cons, Statement.bare, lowerStatements]
          rw [← CodeUnit.bare_placeLabel code name span]
          exact ih _ _
      | instruction span mnemonic arguments =>
          simp only [List.map_cons, Statement.bare, lowerStatements]
          refine (routine.lowerInstruction_erases span mnemonic arguments).bind fun lowered => ?_
          obtain ⟨instructions, ended⟩ := lowered
          simp only [bareLowered]
          rw [← CodeUnit.bare_append]
          exact ih _ _

/-- A routine without places is lowered to the unit of the routine without places. -/
theorem lower_bare (routine : Routine) :
    routine.bare.lower = (routine.lower.1.bare, Diagnostics.bare routine.lower.2) := by
  let opening := ((CodeUnit.empty routine.kind routine.name).placeLabel routine.name
    routine.span).append routine.prologue
  have hopening : ((CodeUnit.empty routine.bare.kind routine.bare.name).placeLabel
      routine.bare.name routine.bare.span).append routine.bare.prologue = opening.bare := by
    rw [CodeUnit.bare_append, CodeUnit.bare_placeLabel, prologue_bare]
    rfl
  have hbody : routine.bare.lowerStatements opening.bare false routine.bare.statements [] = _ :=
    @lowerStatements_erases [] routine opening false routine.statements []
  simp only [lower, StateT.run, hopening, hbody, bareUnit, tail_bare, ← CodeUnit.bare_append,
    ← apply_ite CodeUnit.bare]
  rfl

end Routine

end NovelAsm
