import NovelAsm.CodeUnit.Problem
import NovelAsm.Expr.Computation
import NovelAsm.Instruction.Table
import NovelAsm.Routine

/-!
Operands as they were written, checked and turned into machine operands. A step
whose result is nothing has reported why, unless its expression is an error that
was reported before. All operands of an instruction are looked at, also behind
one that is wrong.
-/

namespace NovelAsm

namespace Expr

/-- A number that an instruction can hold: a constant or a register. -/
def toNumber (expr : Expr) : Reporting (Option Number) := do
  let computation ← expr.compute
  if !computation.isValid then return none
  match computation.number? with
  | some number => return some number
  | none => OperandProblem.notANumber.refuse expr.span

/-- A register that is written as such. -/
def toRegister : Expr → Reporting (Option Register)
  | .register _ source _ => return some source
  | .error _ => return none
  | expr => OperandProblem.notARegister.refuse expr.span

/-- A constant from zero up to a limit. -/
def toBounded (limit : Int) (problem : OperandProblem) (expr : Expr) :
    Reporting (Option Int32) := do
  let computation ← expr.compute
  if !computation.isValid then return none
  match computation.constant? with
  | some value =>
      if 0 ≤ value.toInt && value.toInt ≤ limit then return some value
      else problem.refuse expr.span
  | none => problem.refuse expr.span

def toByte (expr : Expr) : Reporting (Option Int32) := expr.toBounded 0xff .notAByte

def toMessageId (expr : Expr) : Reporting (Option Int32) := expr.toBounded 0xffffff .notAMessageId

def toCaseKey (expr : Expr) : Reporting (Option Int32) := expr.toBounded 0xfffe .notACaseKey

/-- A string that is written as such. -/
def toText : Expr → Reporting (Option Bytes)
  | .string _ text => return some text
  | .error _ => return none
  | expr => OperandProblem.notAString.refuse expr.span

/-- A place in the code: a name, or an address as an integer literal. The upper half of the
address space arrives as negative literals. -/
def toTarget : Expr → Reporting (Option CodeTarget)
  | .codeAddress span name _ _ => return some ⟨.symbol name, span⟩
  | .literal span ⟨value, .integer⟩ => return some ⟨.address value.toUInt32, span⟩
  | .error _ => return none
  | expr => OperandProblem.notATarget.refuse expr.span

/-- The terms that leave the value of an expression on the stack. -/
def toTerms (expr : Expr) : Reporting (Option (List Term)) := do
  let computation ← expr.compute
  return if computation.isValid then some computation.toTerms else none

end Expr

/-- All results of a list, if each step has one. Every step is taken. -/
def allOf {α β : Type} (step : α → Reporting (Option β)) : List α → Reporting (Option (List β))
  | [] => return some []
  | first :: rest => do
      let result ← step first
      let results ← allOf step rest
      return match result, results with
        | some result, some results => some (result :: results)
        | _, _ => none

namespace Argument

/-- An operand that has to be an expression. -/
def toExpr : Argument → Reporting (Option Expr)
  | .expression _ value => return some value
  | .array span _ => OperandProblem.misplacedArray.refuse span
  | .flag span _ | .jumpTable span _ => OperandProblem.misplacedJumpTable.refuse span

/-- Reads an operand that has to be an expression, and gives it the span of that. -/
def read {α : Type} (argument : Argument) (reader : Expr → Reporting (Option α))
    (toValue : α → OperandValue) : Reporting (Option Operand) := do
  match ← argument.toExpr with
  | none => return none
  | some expr => return (← reader expr).map fun value => ⟨toValue value, expr.span⟩

/-- The slots of a bitmask; those that are not written are zero. -/
def toBitmask : Argument → Reporting (Option Operand)
  | .array span elements => do
      if Instruction.bitmaskSlots < elements.length then
        OperandProblem.notABitmask.refuse span
      else
        let numbers ← allOf Expr.toNumber elements
        return numbers.map fun numbers =>
          let padding := List.replicate (Instruction.bitmaskSlots - numbers.length) (.constant 0)
          ⟨.bitmask (numbers ++ padding), span⟩
  | argument => OperandProblem.notABitmask.refuse argument.span

def toPaddedTable : Argument → Reporting (Option Operand)
  | .array span elements => do
      let numbers ← allOf Expr.toNumber elements
      return numbers.map fun numbers => ⟨.paddedTable numbers, span⟩
  | argument => OperandProblem.notAnArray.refuse argument.span

/-- One case of a table jump; both of its parts are looked at. -/
def toCase (tableCase : TableCase) : Reporting (Option (Int32 × CodeTarget)) := do
  let key ← tableCase.key.toCaseKey
  let destination ← tableCase.target.toTarget
  return match key, destination with
    | some key, some destination => some (key, destination)
    | _, _ => none

def toTargetTable : Argument → Reporting (Option Operand)
  | .jumpTable span cases => do
      let cases ← allOf toCase cases
      return cases.map fun cases =>
        ⟨.targetTable (cases.map Prod.fst) (cases.map Prod.snd), span⟩
  | argument => OperandProblem.notAJumpTable.refuse argument.span

/-- The operand for a slot that takes one. -/
def toOperand (slot : Slot) (argument : Argument) : Reporting (Option Operand) :=
  match slot with
  | .bitmask => argument.toBitmask
  | .targetTable => argument.toTargetTable
  | .paddedTable => argument.toPaddedTable
  | .number => argument.read Expr.toNumber .number
  | .register => argument.read Expr.toRegister .register
  | .byte => argument.read Expr.toByte fun value => .byte value.toUInt32
  | .messageId => argument.read Expr.toMessageId fun value => .messageId value.toUInt32
  | .string => argument.read Expr.toText .string
  | .target => argument.read Expr.toTarget fun destination => .target [destination]
  | .expression => argument.read Expr.toTerms .expression
  | .flag _ _ | .numberList | .registerList | .byteList => return none

/-- Reads an element of a list, which has to be an expression. -/
def element {α : Type} (reader : Expr → Reporting (Option α)) (argument : Argument) :
    Reporting (Option α) := do
  match ← argument.toExpr with
  | none => return none
  | some expr => reader expr

/-- How many elements a list can have: its length is one byte in code. -/
def listLimit : Nat := 0xff

/-- The operand for a slot that takes all arguments that are left. -/
def toList (slot : Slot) (arguments : List Argument) (span : Span) :
    Reporting (Option Operand) := do
  if listLimit < arguments.length then
    (OperandProblem.listTooLong arguments.length).refuse span
  else
    match slot with
    | .numberList =>
        return (← allOf (element Expr.toNumber) arguments).map (⟨.numberList ·, span⟩)
    | .registerList =>
        return (← allOf (element Expr.toRegister) arguments).map (⟨.registerList ·, span⟩)
    | _ =>
        return (← allOf (element Expr.toByte) arguments).map fun values =>
          ⟨.byteList (values.map fun value => value.toUInt32.toUInt8), span⟩

end Argument

/-- The value of a flag: the other one of its two values, if its name is written. -/
def Slot.flagValue (normal : UInt8) (isWritten : Bool) : UInt8 :=
  if !isWritten then normal else if normal == 0 then 1 else 0

/-- The operands for the slots of an instruction at a span. -/
def Slot.fill (flags : List Flag) (span : Span) :
    List Slot → List Argument → Reporting (Option (List Operand))
  | [], _ => return some []
  | slot :: slots, arguments => do
      let (first, rest) ←
        match slot, arguments with
        | .flag name normal, arguments =>
            let value := flagValue normal (flags.contains name)
            pure (some ⟨.flag value.toUInt32, span⟩, arguments)
        | slot, arguments =>
            if slot.isList then do
              pure (← Argument.toList slot arguments span, [])
            else
              match arguments with
              | [] => pure (none, [])
              | argument :: rest => do pure (← argument.toOperand slot, rest)
      let others ← fill flags span slots rest
      return match first, others with
        | some operand, some operands => some (operand :: operands)
        | _, _ => none

end NovelAsm
