import NovelAsm.Diagnostic
import NovelAsm.Flag

/-!
What can be wrong with the operands that were written for an instruction.
-/

namespace NovelAsm

inductive OperandProblem where
  | unknownInstruction (mnemonic : Bytes)
  | flagRefused (mnemonic : Bytes) (flag : Flag)
  | flagRepeated (flag : Flag)
  | operandCount (mnemonic : Bytes) (expected found : Nat)
  | notANumber
  | notARegister
  | notAByte
  | notAString
  | listTooLong (count : Nat)
  | notATarget
  | argumentCount (function : Bytes) (taken given : Nat)
  | notACaseKey
  | unsupportedCondition
  | notABitmask
  | notACondition
  | notAnArray
  | notAJumpTable
  | misplacedArray
  | misplacedJumpTable
  | notAMessageId
deriving DecidableEq, Repr

namespace OperandProblem

def code : OperandProblem → String
  | .unknownInstruction _ => "SASM-E2310"
  | .flagRefused _ _ => "SASM-E2311"
  | .flagRepeated _ => "SASM-E2312"
  | .operandCount _ _ _ => "SASM-E2313"
  | .notANumber => "SASM-E2314"
  | .notARegister => "SASM-E2315"
  | .notAByte => "SASM-E2316"
  | .notAString => "SASM-E2317"
  | .listTooLong _ => "SASM-E2318"
  | .notATarget => "SASM-E2319"
  | .argumentCount _ _ _ => "SASM-E2320"
  | .notACaseKey => "SASM-E2321"
  | .unsupportedCondition => "SASM-E2322"
  | .notABitmask => "SASM-E2323"
  | .notACondition | .notAnArray | .notAJumpTable | .misplacedArray | .misplacedJumpTable =>
      "SASM-E2324"
  | .notAMessageId => "SASM-E2325"

def message : OperandProblem → Bytes
  | .unknownInstruction mnemonic => ascii "Unknown instruction '" ++ mnemonic ++ ascii "'."
  | .flagRefused mnemonic flag =>
      ascii "Instruction '" ++ mnemonic ++ ascii "' does not accept flag '" ++ ascii flag.text
        ++ ascii "'."
  | .flagRepeated flag =>
      ascii "Flag '" ++ ascii flag.text ++ ascii "' is given more than once."
  | .operandCount mnemonic expected found =>
      ascii "Instruction '" ++ mnemonic ++ ascii "' expects " ++ decimal expected
        ++ ascii " operand(s), found " ++ decimal found ++ ascii "."
  | .notANumber =>
      ascii "Operand must fold to a constant or be a single register; "
        ++ ascii "use 'exp' for computed values."
  | .notARegister => ascii "Expected a register."
  | .notAByte => ascii "Expected a byte constant 0..255."
  | .notAString => ascii "Expected a string."
  | .listTooLong count =>
      ascii "Operand list has " ++ decimal count ++ ascii " entries; at most 255 fit."
  | .notATarget => ascii "Expected a label, function or subroutine name, or an address."
  | .argumentCount function taken given =>
      ascii "Function '" ++ function ++ ascii "' takes " ++ decimal taken
        ++ ascii " argument(s), " ++ decimal given ++ ascii " given."
  | .notACaseKey => ascii "Expected a case key 0..65534."
  | .unsupportedCondition =>
      ascii "Unsupported jump condition; expected a comparison, 'a & b' or 'a & (1 << b)'."
  | .notABitmask => ascii "Expected an array of at most 8 numbers."
  | .notACondition => ascii "Expected a condition."
  | .notAnArray => ascii "Expected an array of numbers."
  | .notAJumpTable => ascii "Expected a jump table '\x7b key => target, ... \x7d'."
  | .misplacedArray => ascii "An array is not allowed here."
  | .misplacedJumpTable => ascii "A jump table is not allowed here."
  | .notAMessageId => ascii "Expected a message id 0..0xffffff."

def report (problem : OperandProblem) (span : Span) : Reporting PUnit :=
  .report (.error problem.code problem.message span)

/-- Reports a problem; the step that met it has no result. -/
def refuse {α : Type} (problem : OperandProblem) (span : Span) : Reporting (Option α) := do
  problem.report span
  return none

end OperandProblem

end NovelAsm
