import NovelAsm.Instruction.Printer

/-!
Reading code byte by byte. A reader works on what is left of a block and counts
the bytes it has taken; it stops at the first failure, which tells what is wrong,
at which byte, and how many bytes had been taken by then. Positions count from
the byte where the reading began, so the result does not depend on where in a
block that is.
-/

namespace NovelAsm

inductive DecodeProblem where
  | truncated
  | unknownOpcode (code : UInt8)
  | unknownOperation (code opcode : UInt8)
  | unknownCondition (code : UInt8)
  | invalidNumber (form : UInt8)
  | invalidRegister (raw : Nat)
  | unknownTerm (code : UInt8)
  | stackUnderflow
  | notOneValue
  | selectOpcode
deriving DecidableEq, Repr

namespace DecodeProblem

def code : DecodeProblem → String
  | .truncated => "SASM-W5001"
  | .unknownOpcode _ | .unknownOperation _ _ | .unknownCondition _ => "SASM-W5002"
  | .invalidNumber _ => "SASM-W5003"
  | .invalidRegister _ => "SASM-W5004"
  | .unknownTerm _ | .stackUnderflow | .notOneValue => "SASM-W5005"
  | .selectOpcode => "SASM-W5006"

def message : DecodeProblem → Bytes
  | .truncated => ascii "Instruction is truncated at the end of the block."
  | .unknownOpcode code => ascii "Unknown opcode " ++ hexByte code ++ ascii "."
  | .unknownOperation code opcode =>
      ascii "Unknown operation type " ++ hexByte code ++ ascii " for opcode " ++ hexByte opcode
        ++ ascii "."
  | .unknownCondition code => ascii "Unknown jump condition " ++ hexByte code ++ ascii "."
  | .invalidNumber form => ascii "Invalid number operand form " ++ hexByte form ++ ascii "."
  | .invalidRegister raw => ascii "Invalid register number " ++ decimal raw ++ ascii "."
  | .unknownTerm code => ascii "Unknown expression term " ++ hexByte code ++ ascii "."
  | .stackUnderflow => ascii "Expression pops more values than it pushed."
  | .notOneValue => ascii "Expression must leave exactly one value."
  | .selectOpcode => ascii "Opcode 0x8d (SELECT) is not supported."

end DecodeProblem

/-- Why and where a reading stopped, and how many bytes it had taken. -/
structure DecodeFailure where
  problem : DecodeProblem
  offset : Nat
  taken : Nat
deriving DecidableEq, Repr

/-- The bytes that are left and the number of those taken. -/
structure ReadState where
  rest : Bytes
  position : Nat

abbrev CodeReader := StateT ReadState (Except DecodeFailure)

namespace CodeReader

/-- Stops with a problem at a position. -/
def fail {α : Type} (problem : DecodeProblem) (offset : Nat) : CodeReader α :=
  fun state => .error ⟨problem, offset, state.position⟩

def position : CodeReader Nat := return (← get).position

/-- How many bytes are left. -/
def remaining : CodeReader Nat := return (← get).rest.length

/-- Takes one byte. -/
def u8 : CodeReader UInt8 := fun state =>
  match state.rest with
  | [] => .error ⟨.truncated, state.position, state.position⟩
  | b :: rest => .ok (b, ⟨rest, state.position + 1⟩)

/-- Takes `n` items behind those in `taken`, which holds the last one first. -/
def collect {α : Type} (item : CodeReader α) : Nat → List α → CodeReader (List α)
  | 0, taken => return taken.reverse
  | n + 1, taken => do
      let value ← item
      collect item n (value :: taken)

/-- Takes `n` items. -/
def many {α : Type} (item : CodeReader α) (n : Nat) : CodeReader (List α) := collect item n []

/-- Takes a number with its lowest byte first. -/
def littleEndian (width : Nat) : CodeReader Nat :=
  return (← many u8 width).foldr (fun b n => b.toNat + 256 * n) 0

/-- Takes a number with its highest byte first. -/
def bigEndian (width : Nat) : CodeReader Nat :=
  return (← many u8 width).foldl (fun n b => n * 256 + b.toNat) 0

/-- Takes a register of either class. -/
def register : CodeReader Register := do
  let start ← position
  let raw ← littleEndian 2
  match Register.ofRaw? raw with
  | some register => return register
  | none => fail (.invalidRegister raw) start

end CodeReader

end NovelAsm
