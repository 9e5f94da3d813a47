import NovelAsm.Diagnostic
import NovelAsm.Number

/-!
What can be wrong with the names of a program.
-/

namespace NovelAsm

inductive NameProblem where
  | duplicateSymbol (name : Bytes)
  | duplicateDefinition (name : Bytes)
  | duplicateParameter (name : Bytes)
  | undefinedSymbol (name : Bytes)
  | undefinedRegister (name : Bytes)
  | looseInstruction
  | unknownIntrinsic (name : Bytes)
  | tooManyParameters (function : Bytes)
  | parameterIsBuiltin (name : Bytes)
  | preservedParameter (name : Bytes)
  | preservedArgument (name : Bytes)
  | reversedRange
  | preservedTwice (register : Register)
  | selfReference (name : Bytes)
  | registerInConstant (name : Bytes)
  | builtinRedefined (name : Bytes)
  | aliasOfNoRegister (name : Bytes)
  | integerOutOfRange (literal : Bytes)
  | realOutOfRange (literal : Bytes)
deriving DecidableEq, Repr

namespace NameProblem

/-- How many parameters a function can have: one for each argument register that a number
operand reaches. -/
def parameterLimit : Nat := 16

def code : NameProblem → String
  | .duplicateSymbol _ => "SASM-E2200"
  | .undefinedSymbol _ => "SASM-E2201"
  | .undefinedRegister _ => "SASM-E2202"
  | .looseInstruction => "SASM-E2203"
  | .unknownIntrinsic _ => "SASM-E2204"
  | .duplicateDefinition _ => "SASM-E2205"
  | .duplicateParameter _ => "SASM-E2206"
  | .tooManyParameters _ => "SASM-E2207"
  | .parameterIsBuiltin _ => "SASM-E2208"
  | .preservedParameter _ => "SASM-E2209"
  | .preservedArgument _ => "SASM-E2210"
  | .reversedRange => "SASM-E2211"
  | .preservedTwice _ => "SASM-E2212"
  | .selfReference _ => "SASM-E2213"
  | .registerInConstant _ => "SASM-E2215"
  | .builtinRedefined _ | .aliasOfNoRegister _ => "SASM-E2216"
  | .integerOutOfRange _ | .realOutOfRange _ => "SASM-E2217"

/-- A text around a name. -/
private def around (front : String) (name : Bytes) (back : String) : Bytes :=
  ascii front ++ name ++ ascii back

def message : NameProblem → Bytes
  | .duplicateSymbol name | .duplicateDefinition name | .duplicateParameter name =>
      around "Duplicate declaration of '" name "'."
  | .undefinedSymbol name => around "Undefined symbol '" name "'."
  | .undefinedRegister name => around "Undefined register alias '" name "'."
  | .looseInstruction => ascii "Instruction does not follow any label."
  | .unknownIntrinsic name => around "Unknown intrinsic function '" name "'."
  | .tooManyParameters function =>
      around "Function '" function "' declares more than " ++ decimal parameterLimit
        ++ ascii " parameters."
  | .parameterIsBuiltin name => around "Parameter alias '" name "' shadows a builtin register."
  | .preservedParameter name =>
      around "Preserved register '" name "' collides with a parameter alias."
  | .preservedArgument name =>
      around "Preserved ranges may not contain argument register '" name "'."
  | .reversedRange => ascii "Preserved range ends before it starts."
  | .preservedTwice register => around "Register '" register.name "' is preserved twice."
  | .selfReference name => around "Definition of '" name "' refers to itself."
  | .registerInConstant name =>
      around "Register '" name "' cannot be used in a constant definition."
  | .builtinRedefined name => around "Builtin register '" name "' cannot be redefined."
  | .aliasOfNoRegister name => around "Register alias '" name "' must name a register."
  | .integerOutOfRange literal => around "Integer literal '" literal "' does not fit in 32 bits."
  | .realOutOfRange literal => around "Real literal '" literal "' is out of range."

def diagnose (problem : NameProblem) (span : Span) : Diagnostic :=
  .error problem.code problem.message span

/-- The diagnostic for a second declaration, with a note at the first. -/
def diagnoseDuplicate (problem : NameProblem) (span first : Span) : Diagnostic :=
  (problem.diagnose span).withNote first (ascii "first declared here")

def report (problem : NameProblem) (span : Span) : Reporting PUnit :=
  .report (problem.diagnose span)

end NameProblem

end NovelAsm
