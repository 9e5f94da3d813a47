import NovelAsm.Code.Number

/-!
Instructions read back from code. A code address stays an absolute address, and
spans are those of no text.
-/

namespace NovelAsm

namespace CodeReader

/-- Takes a number that begins an entry of four bytes. -/
def paddedNumber : CodeReader Number := do
  let start ← position
  let number ← Number.read
  let _ ← many u8 (4 - ((← position) - start))
  return number

/-- Takes the numbers of a bitmask: those of the bits that are set. -/
def bitmaskSlot (mask : UInt8) (slot : Nat) : CodeReader Number :=
  if mask.toNat.testBit slot then Number.read else return .constant 0

def target : CodeReader CodeTarget :=
  return ⟨.address (← littleEndian 4).toUInt32, .origin⟩

/-- Takes terms up to their terminator, behind those in `taken`, which leave `depth` values.
Every term is a byte at least, so the bytes that are left bound their number. -/
def termsFrom (start : Nat) : Nat → Nat → List Term → CodeReader (List Term)
  | 0, _, _ => do fail .truncated (← position)
  | bound + 1, depth, taken => do
      let offset ← position
      let code ← u8
      if code == Term.terminator then
        if depth == 1 then return taken.reverse else fail .notOneValue start
      else if code == Term.pushCode then
        let number ← Number.read
        termsFrom start bound (depth + 1) (.push number :: taken)
      else
        match Operator.ofCode? code with
        | none => fail (.unknownTerm code) offset
        | some operator =>
            if depth < operator.arity then fail .stackUnderflow start
            else termsFrom start bound (depth - operator.arity + 1) (.apply operator :: taken)

/-- Takes a list of terms that leaves exactly one value. -/
def terms : CodeReader (List Term) := do
  termsFrom (← position) ((← remaining) + 1) 0 []

/-- A stored text without the NUL at its end, which its length counts. -/
def dropTerminator (text : Bytes) : Bytes :=
  if text.getLast? == some 0 then text.dropLast else text

/-- Takes the operand for a slot. -/
def slot : Slot → CodeReader OperandValue
  | .number => return .number (← Number.read)
  | .register => return .register (← register)
  | .byte => return .byte (← u8).toUInt32
  | .flag _ _ => return .flag (← u8).toUInt32
  | .messageId => return .messageId (← littleEndian 3).toUInt32
  | .string => do
      let length ← littleEndian 2
      return .string (dropTerminator (← many u8 length))
  | .numberList => do
      let count ← u8
      return .numberList (← many Number.read count.toNat)
  | .registerList => do
      let count ← u8
      return .registerList (← many register count.toNat)
  | .bitmask => do
      let mask ← u8
      return .bitmask (← (List.range Instruction.bitmaskSlots).mapM (bitmaskSlot mask))
  | .target => return .target [← target]
  | .targetTable => do
      let count ← littleEndian 2
      let targets ← many target count
      return .targetTable ((List.range count).map fun key => Int32.ofNat key) targets
  | .paddedTable => do
      let count ← littleEndian 2
      return .paddedTable (← many paddedNumber count)
  | .expression => return .expression (← terms)
  | .byteList => return .byteList []

def operands (slots : List Slot) : CodeReader (List Operand) :=
  slots.mapM fun s => return ⟨← slot s, .origin⟩

/-- Takes the type byte of a typed operation and answers it with the slots that follow. -/
def typedSlots (opcode : UInt8) : CodeReader (UInt8 × List Slot) := do
  let subtype ← u8
  match Form.ofOpcode? ⟨opcode.toUInt16⟩ subtype with
  | none => fail (.unknownOperation subtype opcode) 0
  | some form =>
      if subtype &&& Instruction.explicitBit != 0 then return (subtype, form.slots)
      else return (subtype, form.slots.eraseIdx 1)

/-- Takes the condition of a jump. -/
def condition : CodeReader UInt8 := do
  let subtype ← u8
  match Condition.ofCode? (subtype &&& ~~~Instruction.negatedBit) with
  | some _ => return subtype
  | none => fail (.unknownCondition subtype) 0

/-- Takes what stands between an opcode and its operands, and answers the type byte with the
slots that follow. -/
def typeByte (opcode : UInt8) (form : Form) : CodeReader (UInt8 × List Slot) :=
  match form.layout with
  | .plain => return (0, form.slots)
  | .typedOptional => typedSlots opcode
  | .conditional => return (← condition, form.slots)

/-- Takes one instruction. -/
def instruction : CodeReader Instruction := do
  let opcode ← u8
  if opcode.toUInt16 == Opcode.select.code then fail .selectOpcode 0
  else
    match Form.ofOpcode? ⟨opcode.toUInt16⟩ 0 with
    | none => fail (.unknownOpcode opcode) 0
    | some form =>
        let (subtype, slots) ← typeByte opcode form
        return ⟨⟨opcode.toUInt16⟩, subtype, ← operands slots, .origin⟩

end CodeReader

/-- An instruction with the number of its bytes. -/
structure DecodedInstruction where
  instruction : Instruction
  size : Nat
deriving DecidableEq, Repr

namespace DecodedInstruction

/-- The instruction that a block of code begins with. -/
def read (code : Bytes) : Except DecodeFailure DecodedInstruction :=
  match CodeReader.instruction.run ⟨code, 0⟩ with
  | .ok (instruction, state) => .ok ⟨instruction, state.position⟩
  | .error failure => .error failure

/-- The instruction at an offset of a block; a failure is placed in the block. -/
def readAt (code : Bytes) (offset : Nat) : Except DecodeFailure DecodedInstruction :=
  match read (code.drop offset) with
  | .ok decoded => .ok decoded
  | .error failure => .error { failure with offset := offset + failure.offset }

end DecodedInstruction

/-- The number that a block of code begins with, and how many bytes it takes. -/
def Number.decode? (code : Bytes) : Option (Number × Nat) :=
  match Number.read.run ⟨code, 0⟩ with
  | .ok (number, state) => some (number, state.position)
  | .error _ => none

end NovelAsm
