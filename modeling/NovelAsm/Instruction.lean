import NovelAsm.Location
import NovelAsm.Term

/-!
Machine instructions: an opcode, a type byte that some opcodes carry, and the
operands in the order of their encoding. Places in the code are symbols until a
program is linked.

The types admit any combination of opcode and operands; which ones the machine
knows is said by the instruction table.
-/

namespace NovelAsm

/-- The number of an operation. All but `rawData` are one byte in code. -/
structure Opcode where
  code : UInt16
deriving DecidableEq, Repr

namespace Opcode

def unary : Opcode := ⟨0x40⟩
def binary : Opcode := ⟨0x41⟩
def jumpConditional : Opcode := ⟨0x46⟩
def jump : Opcode := ⟨0x47⟩
def retsub : Opcode := ⟨0x49⟩
def push : Opcode := ⟨0x4d⟩
def pop : Opcode := ⟨0x4e⟩
def call : Opcode := ⟨0x4f⟩
def ret : Opcode := ⟨0x50⟩

/-- Known to the machine, but neither assembled nor disassembled. -/
def select : Opcode := ⟨0x8d⟩

/-- Not an operation of the machine: bytes that are written as they are. -/
def rawData : Opcode := ⟨0x100⟩

/-- Whether nothing is executed behind an operation. -/
def endsControlFlow (opcode : Opcode) : Bool := [jump, ret, retsub].contains opcode

end Opcode

/-- A place in the code. -/
inductive Place where
  | symbol (name : Bytes)
  | address (value : UInt32)
deriving DecidableEq, Repr

namespace Place

def text : Place → Bytes
  | .symbol name => name
  | .address value => ascii "0x" ++ hex 0 value.toNat

end Place

structure CodeTarget where
  place : Place
  span : Span
deriving DecidableEq, Repr

inductive OperandValue where
  | number (value : Number)
  | register (value : Register)
  | byte (value : UInt32)
  | flag (value : UInt32)
  | messageId (value : UInt32)
  | string (value : Bytes)
  | numberList (values : List Number)
  | registerList (values : List Register)
  | bitmask (slots : List Number)
  | target (targets : List CodeTarget)
  /-- A table jump. Key and target of a case stand at the same position. -/
  | targetTable (keys : List Int32) (targets : List CodeTarget)
  | paddedTable (values : List Number)
  | expression (terms : List Term)
  | byteList (values : Bytes)
deriving DecidableEq, Repr

def OperandValue.kindName : OperandValue → String
  | .number _ => "number"
  | .register _ => "register"
  | .byte _ => "byte"
  | .flag _ => "flag"
  | .messageId _ => "messageId"
  | .string _ => "string"
  | .numberList _ => "numberList"
  | .registerList _ => "registerList"
  | .bitmask _ => "bitmaskNumbers"
  | .target _ => "target"
  | .targetTable _ _ => "targetTable"
  | .paddedTable _ => "paddedNumberTable"
  | .expression _ => "expression"
  | .byteList _ => "byteList"

namespace OperandValue

/-- The places in the code that an operand names. -/
def targets : OperandValue → List CodeTarget
  | .target destinations | .targetTable _ destinations => destinations
  | _ => []

/-- The operand with each of its places in the code changed. -/
def mapTargets (change : CodeTarget → CodeTarget) : OperandValue → OperandValue
  | .target destinations => .target (destinations.map change)
  | .targetTable keys destinations => .targetTable keys (destinations.map change)
  | value => value

end OperandValue

structure Operand where
  value : OperandValue
  span : Span
deriving DecidableEq, Repr

structure Instruction where
  opcode : Opcode
  /-- The operation of `unary` and `binary`, or the condition of a conditional jump. -/
  subtype : UInt8
  operands : List Operand
  span : Span
deriving DecidableEq, Repr

namespace Instruction

/-- Marks a typed operation that has its optional operand. -/
def explicitBit : UInt8 := 0x80

/-- Marks a conditional jump with its condition inverted. -/
def negatedBit : UInt8 := 0x80

/-- The slots of a bitmask operand. -/
def bitmaskSlots : Nat := 8

/-- The places in the code that an instruction names. -/
def targets (instruction : Instruction) : List CodeTarget :=
  instruction.operands.flatMap (·.value.targets)

def mapTargets (instruction : Instruction) (change : CodeTarget → CodeTarget) : Instruction :=
  { instruction with
    operands := instruction.operands.map fun operand =>
      { operand with value := operand.value.mapTargets change } }

end Instruction

/-- The conditions of a conditional jump on its two numbers. -/
inductive Condition where
  | equal | notEqual
  | greaterEqual | greater
  | lessEqual | less
  | masked
  | bitSet
deriving DecidableEq, Repr

namespace Condition

def all : List Condition :=
  [.equal, .notEqual, .greaterEqual, .greater, .lessEqual, .less, .masked, .bitSet]

def code : Condition → UInt8
  | .equal => 0
  | .notEqual => 1
  | .greaterEqual => 2
  | .greater => 3
  | .lessEqual => 4
  | .less => 5
  | .masked => 6
  | .bitSet => 7

def ofCode? (code : UInt8) : Option Condition := all.find? (·.code == code)

/-- The operator that a condition is written with. -/
def operator : Condition → String
  | .equal => "=="
  | .notEqual => "!="
  | .greaterEqual => ">="
  | .greater => ">"
  | .lessEqual => "<="
  | .less => "<"
  | .masked | .bitSet => "&"

end Condition

end NovelAsm
