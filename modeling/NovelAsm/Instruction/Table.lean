import NovelAsm.Flag
import NovelAsm.Instruction

/-!
The instruction table: for each mnemonic its opcode and the operands that follow
it. A list takes up all operands that are left, so it stands last. A flag is
written by its name behind the operands, and stands in code at its place in the
table.
-/

namespace NovelAsm

/-- What an instruction expects at one place. -/
inductive Slot where
  | number
  | register
  | byte
  /-- A flag with its value when its name is not written. -/
  | flag (name : Flag) (normal : UInt8)
  | messageId
  | string
  | numberList
  | registerList
  | bitmask
  | target
  | targetTable
  | paddedTable
  | expression
  | byteList
deriving DecidableEq, Repr

namespace Slot

def name : Slot → String
  | .number => "number"
  | .register => "register"
  | .byte => "byte"
  | .flag _ _ => "flag"
  | .messageId => "messageId"
  | .string => "string"
  | .numberList => "numberList"
  | .registerList => "registerList"
  | .bitmask => "bitmaskNumbers"
  | .target => "target"
  | .targetTable => "targetTable"
  | .paddedTable => "paddedNumberTable"
  | .expression => "expression"
  | .byteList => "byteList"

def isFlag : Slot → Bool
  | .flag _ _ => true
  | _ => false

def flag? : Slot → Option Flag
  | .flag name _ => some name
  | _ => none

/-- Whether a slot takes any number of operands. -/
def isList : Slot → Bool
  | .numberList | .registerList | .byteList => true
  | _ => false

end Slot

/-- What stands between the opcode byte and the operands. -/
inductive Layout where
  | plain
  /-- A byte with the operation, and with a bit for the optional second operand. -/
  | typedOptional
  /-- A byte with the condition. -/
  | conditional
deriving DecidableEq, Repr

def Layout.name : Layout → String
  | .plain => "plain"
  | .typedOptional => "typedOptional"
  | .conditional => "conditional"

/-- One row of the instruction table. -/
structure Form where
  opcode : Opcode
  mnemonic : String
  layout : Layout
  subtype : UInt8
  slots : List Slot
deriving DecidableEq, Repr

namespace Form

private def plain (code : UInt16) (mnemonic : String) (slots : List Slot) : Form :=
  ⟨⟨code⟩, mnemonic, .plain, 0, slots⟩

/-- Instructions that take numbers alone. -/
private def numbers (code : UInt16) (mnemonic : String) (count : Nat) : Form :=
  plain code mnemonic (List.replicate count .number)

/-- Operations of one opcode, told apart by their position. -/
private def typed (opcode : Opcode) (slots : List Slot) (mnemonics : List String) : List Form :=
  mnemonics.zipIdx.map fun (mnemonic, index) =>
    ⟨opcode, mnemonic, .typedOptional, index.toUInt8, slots⟩

private def unaryForms : List Form :=
  typed .unary [.register, .number] ["zero", "not16", "neg", "abs"]

private def binaryForms : List Form :=
  typed .binary [.register, .number, .number]
    ["mov", "bzero", "add", "sub", "mul", "div", "mod", "and", "or", "xor", "shl", "shr", "mulf",
      "divf", "atan2", "setbit", "clearbit", "bitscan"]

/-- Computation and control flow. -/
private def coreForms : List Form :=
  [ plain 0x42 "exp" [.register, .expression],
    plain 0x44 "gt" [.register, .number, .paddedTable],
    ⟨.jumpConditional, "jc", .conditional, 0, [.number, .number, .target]⟩,
    plain 0x47 "j" [.target],
    plain 0x48 "gosub" [.target],
    plain 0x49 "retsub" [],
    plain 0x4a "jt" [.number, .targetTable],
    plain 0x4c "rnd" [.register, .number, .number],
    plain 0x4d "push" [.numberList],
    plain 0x4e "pop" [.registerList],
    plain 0x4f "call" [.target, .numberList],
    plain 0x50 "return" [] ]

/-- Commands to the engine. -/
private def commandForms : List Form :=
  [ plain 0x00 "EXIT" [.byte, .number],
    plain 0x81 "SGET" [.register, .number],
    numbers 0x82 "SSET" 2,
    plain 0x83 "WAIT" [.flag .interruptable 0, .number],
    numbers 0x85 "MSGINIT" 1,
    plain 0x86 "MSGSET" [.messageId, .flag .nowait 1, .string],
    numbers 0x87 "MSGWAIT" 1,
    plain 0x88 "MSGSIGNAL" [],
    numbers 0x89 "MSGSYNC" 2,
    plain 0x8a "MSGCLOSE" [.flag .nowait 1],
    plain 0x8e "WIPE" [.number, .number, .number, .bitmask],
    plain 0x8f "WIPEWAIT" [],
    numbers 0x90 "BGMPLAY" 4,
    numbers 0x91 "BGMSTOP" 1,
    numbers 0x92 "BGMVOL" 2,
    numbers 0x93 "BGMWAIT" 1,
    numbers 0x94 "BGMSYNC" 1,
    numbers 0x95 "SEPLAY" 7,
    numbers 0x96 "SESTOP" 2,
    numbers 0x97 "SESTOPALL" 1,
    numbers 0x98 "SEVOL" 3,
    numbers 0x99 "SEPAN" 3,
    numbers 0x9a "SEWAIT" 2,
    numbers 0x9b "SEONCE" 5,
    plain 0x9c "VOICEPLAY" [.string, .number, .number],
    plain 0x9d "VOICESTOP" [],
    numbers 0x9e "VOICEWAIT" 1,
    numbers 0x9f "SYSSE" 2,
    plain 0xa0 "SAVEINFO" [.number, .string],
    plain 0xa1 "AUTOSAVE" [],
    numbers 0xa2 "EVBEGIN" 1,
    plain 0xa3 "EVEND" [],
    plain 0xa4 "RESUMESET" [],
    plain 0xa5 "RESUME" [],
    numbers 0xa6 "SYSCALL" 2,
    numbers 0xb0 "TROPHY" 1,
    plain 0xb1 "UNLOCK" [.byte, .numberList],
    numbers 0xc0 "LAYERINIT" 1,
    plain 0xc1 "LAYERLOAD" [.number, .number, .number, .bitmask],
    numbers 0xc2 "LAYERUNLOAD" 2,
    plain 0xc3 "LAYERCTRL" [.number, .number, .bitmask],
    plain 0xc4 "LAYERWAIT" [.number, .numberList],
    numbers 0xc5 "LAYERSWAP" 2,
    numbers 0xc6 "LAYERSELECT" 2,
    numbers 0xc7 "MOVIEWAIT" 2,
    plain 0xc9 "TRANSSET" [.number, .number, .number, .bitmask],
    numbers 0xca "TRANSWAIT" 1,
    plain 0xcb "PAGEBACK" [],
    numbers 0xcc "PLANESELECT" 1,
    plain 0xcd "PLANECLEAR" [],
    numbers 0xce "MASKLOAD" 3,
    plain 0xcf "MASKUNLOAD" [],
    numbers 0xe0 "CHARS" 2,
    plain 0xe1 "TIPSGET" [.numberList],
    plain 0xe2 "QUIZ" [.register, .number],
    plain 0xe3 "SHOWCHARS" [],
    numbers 0xe4 "NOTIFYSET" 1,
    plain 0xff "DEBUGOUT" [.string, .numberList],
    plain 0x100 "db" [.byteList] ]

/-- The instruction table. -/
def table : List Form := unaryForms ++ binaryForms ++ coreForms ++ commandForms

/-- The row of a mnemonic, in whatever case that is written. -/
def ofMnemonic? (mnemonic : Bytes) : Option Form :=
  table.find? fun form => (ascii form.mnemonic).toLower == mnemonic.toLower

/-- The row of an opcode. For typed operations the type byte, without the bit for the
optional operand, selects the row. -/
def ofOpcode? (opcode : Opcode) (subtype : UInt8) : Option Form :=
  table.find? fun form =>
    form.opcode == opcode &&
      (form.layout != .typedOptional || form.subtype == subtype &&& ~~~Instruction.explicitBit)

/-- The row that an instruction belongs to. -/
def ofInstruction? (instruction : Instruction) : Option Form :=
  ofOpcode? instruction.opcode instruction.subtype

end Form

end NovelAsm
