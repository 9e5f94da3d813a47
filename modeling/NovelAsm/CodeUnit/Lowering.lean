import NovelAsm.CodeUnit
import NovelAsm.CodeUnit.Operands

/-!
Routines as code units. Every statement becomes a label or an instruction of its
own, with two exceptions: a function saves its preserved registers at its
beginning and restores them, in reverse, before each return; and a function or
subroutine that does not end with a jump or a return gets one.
-/

namespace NovelAsm

/-- A condition of a jump with the expressions that it compares. -/
structure Comparison where
  condition : Condition
  negated : Bool
  left : Expr
  right : Expr

namespace Comparison

def ofOperator? : BinaryOperator → Option Condition
  | .equal => some .equal
  | .notEqual => some .notEqual
  | .greaterEqual => some .greaterEqual
  | .greater => some .greater
  | .lessEqual => some .lessEqual
  | .less => some .less
  | _ => none

/-- The bit that a mask of the form `1 << bit` selects. -/
def bitOf? : Expr → Option Expr
  | .binary _ .shiftLeft (.literal _ ⟨1, .integer⟩) bit => some bit
  | _ => none

/-- The comparison that an operator makes of its operands. -/
def ofBinary? (negated : Bool) (operator : BinaryOperator) (left right : Expr) :
    Option Comparison :=
  match operator, ofOperator? operator with
  | _, some condition => some ⟨condition, negated, left, right⟩
  | .bitAnd, none =>
      match bitOf? right with
      | some bit => some ⟨.bitSet, negated, left, bit⟩
      | none => some ⟨.masked, negated, left, right⟩
  | _, none => none

/-- The comparison that a condition consists of, below any number of negations. -/
def ofExpr (negated : Bool) : Expr → Reporting (Option Comparison)
  | .error _ => return none
  | .unary _ .logicalNot operand => ofExpr (!negated) operand
  | .binary span operator left right =>
      match ofBinary? negated operator left right with
      | some comparison => return some comparison
      | none => OperandProblem.unsupportedCondition.refuse span
  | expr => OperandProblem.unsupportedCondition.refuse expr.span

/-- The type byte of a jump on the comparison. -/
def subtype (comparison : Comparison) : UInt8 :=
  if comparison.negated then comparison.condition.code ||| Instruction.negatedBit
  else comparison.condition.code

end Comparison

namespace Statement

/-- The flags among the operands, each with its span. -/
def flagsOf (arguments : List Argument) : List (Flag × Span) :=
  arguments.filterMap fun
    | .flag span flag => some (flag, span)
    | _ => none

/-- The operands that are no flags. -/
def positionalOf (arguments : List Argument) : List Argument :=
  arguments.filter fun
    | .flag _ _ => false
    | _ => true

/-- What is wrong with a flag that is written behind others. -/
def flagProblem? (form : Form) (mnemonic : Bytes) (seen : List Flag) (flag : Flag) :
    Option OperandProblem :=
  if !(form.slots.filterMap Slot.flag?).contains flag then some (.flagRefused mnemonic flag)
  else if seen.contains flag then some (.flagRepeated flag)
  else none

/-- The flags written for a row of the table, if all of them are right. Of those already
read, `seen` were right, and `allRight` tells whether there were no others. -/
def checkFlags (form : Form) (mnemonic : Bytes) (seen : List Flag) (allRight : Bool) :
    List (Flag × Span) → Reporting (Option (List Flag))
  | [] => return if allRight then some seen else none
  | (flag, span) :: rest =>
      match flagProblem? form mnemonic seen flag with
      | none => checkFlags form mnemonic (seen ++ [flag]) allRight rest
      | some problem => do
          problem.report span
          checkFlags form mnemonic seen false rest

end Statement

namespace Form

/-- The operands of a typed operation. The second one may be left out, which the type byte
tells. -/
def typedOperands (form : Form) (mnemonic : Bytes) (span : Span) (positional : List Argument) :
    Reporting (Option (UInt8 × List Operand)) := do
  let full := form.slots.length
  if positional.length == full then
    let operands ← Slot.fill [] span form.slots positional
    return operands.map fun operands => (form.subtype ||| Instruction.explicitBit, operands)
  else if positional.length + 1 == full then
    let operands ← Slot.fill [] span (form.slots.eraseIdx 1) positional
    return operands.map fun operands => (form.subtype, operands)
  else (OperandProblem.operandCount mnemonic full positional.length).refuse span

/-- The two numbers and the target of a comparison. -/
def comparisonOperands (comparison : Comparison) (target : Argument) :
    Reporting (Option (UInt8 × List Operand)) := do
  let left ← comparison.left.toNumber
  let right ← comparison.right.toNumber
  let target ← target.toOperand .target
  return match left, right, target with
    | some left, some right, some target =>
        some (comparison.subtype,
          [⟨.number left, comparison.left.span⟩, ⟨.number right, comparison.right.span⟩, target])
    | _, _, _ => none

/-- The operands of a conditional jump, which is written with a condition and a target. -/
def conditionalOperands (mnemonic : Bytes) (span : Span) (positional : List Argument) :
    Reporting (Option (UInt8 × List Operand)) := do
  match positional with
  | [.expression _ condition, target] =>
      match ← Comparison.ofExpr false condition with
      | some comparison => comparisonOperands comparison target
      | none => return none
  | [condition, _] => OperandProblem.notACondition.refuse condition.span
  | _ => (OperandProblem.operandCount mnemonic 2 positional.length).refuse span

/-- How many operands stand before the list at the end of a row, or in all. -/
def requiredCount (form : Form) : Nat :=
  form.slots.countP fun slot => !slot.isFlag && !slot.isList

def hasList (form : Form) : Bool := form.slots.any Slot.isList

/-- Whether a row takes a number of operands. -/
def admits (form : Form) (count : Nat) : Bool :=
  form.requiredCount ≤ count && (form.hasList || count ≤ form.requiredCount)

/-- The operands of all other instructions. -/
def plainOperands (form : Form) (mnemonic : Bytes) (flags : List Flag) (span : Span)
    (positional : List Argument) : Reporting (Option (UInt8 × List Operand)) := do
  if !form.admits positional.length then
    (OperandProblem.operandCount mnemonic form.requiredCount positional.length).refuse span
  else
    let operands ← Slot.fill flags span form.slots positional
    return operands.map fun operands => (form.subtype, operands)

/-- The type byte and the operands of an instruction. -/
def operands (form : Form) (mnemonic : Bytes) (flags : List Flag) (span : Span)
    (positional : List Argument) : Reporting (Option (UInt8 × List Operand)) :=
  match form.layout with
  | .typedOptional => form.typedOperands mnemonic span positional
  | .conditional => conditionalOperands mnemonic span positional
  | .plain => form.plainOperands mnemonic flags span positional

/-- How many arguments a call gives. -/
def argumentCount : List Operand → Nat
  | _ :: ⟨.numberList values, _⟩ :: _ => values.length
  | _ => 0

/-- Whether a call of a function gives as many arguments as that takes. -/
def checkCall (positional : List Argument) (operands : List Operand) : Reporting Bool := do
  match positional with
  | .expression _ (.codeAddress span name .function taken) :: _ =>
      if argumentCount operands == taken then return true
      else
        (OperandProblem.argumentCount name taken (argumentCount operands)).report span
        return false
  | _ => return true

/-- The instruction that is written with some operands. -/
def instruction? (form : Form) (mnemonic : Bytes) (span : Span) (arguments : List Argument) :
    Reporting (Option Instruction) := do
  let positional := Statement.positionalOf arguments
  match ← Statement.checkFlags form mnemonic [] true (Statement.flagsOf arguments) with
  | none => return none
  | some flags =>
      match ← form.operands mnemonic flags span positional with
      | none => return none
      | some (subtype, operands) =>
          let fits ← if form.opcode == .call then checkCall positional operands else pure true
          return if fits then some ⟨form.opcode, subtype, operands, span⟩ else none

end Form

namespace Routine

/-- A return of a function, which restores the preserved registers. -/
def returnFrom (routine : Routine) (span : Span) : List Instruction :=
  let restore : Instruction :=
    ⟨.pop, 0, [⟨.registerList routine.preserved.reverse, span⟩], span⟩
  (if routine.preserved.isEmpty then [] else [restore]) ++ [⟨.ret, 0, [], span⟩]

/-- The instructions at the beginning of a routine: a function saves the registers that it
preserves. -/
def prologue (routine : Routine) : List Instruction :=
  if routine.kind == .function && !routine.preserved.isEmpty then
    let values := routine.preserved.map Number.register
    [⟨.push, 0, [⟨.numberList values, routine.span⟩], routine.span⟩]
  else []

/-- The instructions at the end of a routine whose statements may run out. -/
def tail (routine : Routine) : List Instruction :=
  match routine.kind with
  | .script => []
  | .function => routine.returnFrom routine.span
  | .subroutine => [⟨.retsub, 0, [], routine.span⟩]

/-- The instructions for one that was written, and whether control ends there. -/
def lowerInstruction (routine : Routine) (span : Span) (mnemonic : Bytes)
    (arguments : List Argument) : Reporting (List Instruction × Bool) := do
  match Form.ofMnemonic? mnemonic with
  | none =>
      (OperandProblem.unknownInstruction mnemonic).report span
      return ([], false)
  | some form =>
      if form.opcode == .ret && routine.kind == .function then
        return (routine.returnFrom span, true)
      else
        let instruction ← form.instruction? mnemonic span arguments
        return (instruction.toList, form.opcode.endsControlFlow)

/-- Adds statements to the code of a routine. `ended` tells whether control ends with the
code before them. -/
def lowerStatements (routine : Routine) (code : CodeUnit) (ended : Bool) :
    List Statement → Reporting (CodeUnit × Bool)
  | [] => return (code, ended)
  | .label span name :: rest => lowerStatements routine (code.placeLabel name span) false rest
  | .instruction span mnemonic arguments :: rest => do
      let (instructions, ended) ← lowerInstruction routine span mnemonic arguments
      lowerStatements routine (code.append instructions) ended rest

/-- The code unit of a routine, and what is wrong with its instructions. -/
def lower (routine : Routine) : CodeUnit × Diagnostics :=
  let opening :=
    ((CodeUnit.empty routine.kind routine.name).placeLabel routine.name routine.span).append
      routine.prologue
  let ((code, ended), diagnostics) :=
    (routine.lowerStatements opening false routine.statements).run []
  (if ended then code else code.append routine.tail, diagnostics)

end Routine

end NovelAsm
