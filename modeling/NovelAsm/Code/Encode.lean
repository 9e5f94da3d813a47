import NovelAsm.Code.Number
import NovelAsm.CodeUnit
import NovelAsm.Diagnostic

/-!
Code units as bytes. A unit is laid out from offset zero. Code addresses are not
known yet: each is written as four zero bytes with a relocation, which says what
address belongs there.

A piece of code knows its bytes, its relocations and its diagnostics. Pieces are
encoded for the offset at which they will stand, because a relocation counts from
the beginning of its unit.
-/

namespace NovelAsm

inductive EncodingProblem where
  | constantTooWide (value : Int32)
  | registerOutOfReach (register : Register)
  | caseRepeated (key : Int32)
  | stringTooLong (size : Nat)
  | noEncoding
deriving DecidableEq, Repr

namespace EncodingProblem

def message : EncodingProblem → Bytes
  | .constantTooWide value =>
      ascii "Constant " ++ signedDecimal value.toInt
        ++ ascii " does not fit in a 28-bit number operand."
  | .registerOutOfReach register =>
      ascii "Register " ++ register.name ++ ascii " cannot be encoded in a number operand."
  | .caseRepeated key =>
      ascii "Case " ++ signedDecimal key.toInt
        ++ ascii " is already handled; this entry is ignored."
  | .stringTooLong size =>
      ascii "String of " ++ decimal size ++ ascii " bytes is too long to encode."
  | .noEncoding => ascii "Opcode has no encoding in this VM."

def diagnose (problem : EncodingProblem) (span : Span) : Diagnostic :=
  match problem with
  | .constantTooWide _ => .error "SASM-E4001" problem.message span
  | .registerOutOfReach _ => .error "SASM-E4002" problem.message span
  | .caseRepeated _ => .warning "SASM-W4003" problem.message span
  | .stringTooLong _ => .error "SASM-E4004" problem.message span
  | .noEncoding => .error "SASM-E4005" problem.message span

end EncodingProblem

/-- The address that belongs into a field: that of a symbol, or of an offset in the unit. -/
inductive Referent where
  | symbol (name : Bytes)
  | unitOffset (offset : UInt32)
deriving DecidableEq, Repr

/-- A field of four bytes that waits for an address. -/
structure Relocation where
  offset : Nat
  referent : Referent
  span : Span
deriving DecidableEq, Repr

structure Piece where
  bytes : Bytes
  relocations : List Relocation
  diagnostics : Diagnostics
deriving DecidableEq, Repr

namespace Piece

def empty : Piece := ⟨[], [], []⟩

def ofBytes (bytes : Bytes) : Piece := ⟨bytes, [], []⟩

def size (piece : Piece) : Nat := piece.bytes.length

instance : Append Piece where
  append a b :=
    ⟨a.bytes ++ b.bytes, a.relocations ++ b.relocations, a.diagnostics ++ b.diagnostics⟩

/-- Neighbouring pieces that do not ask where they stand. -/
def concat (pieces : List Piece) : Piece :=
  { bytes := pieces.flatMap bytes
    relocations := pieces.flatMap relocations
    diagnostics := pieces.flatMap diagnostics }

/-- One byte of a number. -/
def u8 (value : Nat) : Piece := ofBytes (littleEndian 1 value)

def u16 (value : Nat) : Piece := ofBytes (littleEndian 2 value)

def u24 (value : Nat) : Piece := ofBytes (littleEndian 3 value)

/-- What is wrong with a number that has no form. -/
def numberProblem : Number → EncodingProblem
  | .constant value => .constantTooWide value
  | .register source => .registerOutOfReach source

/-- A number operand. One without a form leaves a zero byte. -/
def number (span : Span) (value : Number) : Piece :=
  match value.encode? with
  | some bytes => ofBytes bytes
  | none => ⟨[0], [], [(numberProblem value).diagnose span]⟩

/-- The width of an entry in a padded table. -/
def paddedWidth : Nat := 4

/-- A number filled up with zeros to the width of an entry. -/
def paddedNumber (span : Span) (value : Number) : Piece :=
  let piece := number span value
  piece ++ ofBytes (List.replicate (paddedWidth - piece.size) 0)

/-- The longest text that can be stored: its length is two bytes and counts a terminator. -/
def stringLimit : Nat := 0xfffe

/-- A text behind its length and before a NUL. -/
def string (span : Span) (text : Bytes) : Piece :=
  if stringLimit < text.length then
    ⟨[], [], [(EncodingProblem.stringTooLong text.length).diagnose span]⟩
  else u16 (text.length + 1) ++ ofBytes (text ++ [0])

/-- Which of the first slots hold something else than zero. -/
def bitmaskOf (slots : List Number) : Nat :=
  (slots.take Instruction.bitmaskSlots).foldr
    (fun value mask => (if value == .constant 0 then 0 else 1) + 2 * mask) 0

/-- A mask of the slots that are not zero, and their numbers. -/
def bitmask (span : Span) (slots : List Number) : Piece :=
  let used := (slots.take Instruction.bitmaskSlots).filter (· != .constant 0)
  u8 (bitmaskOf slots) ++ concat (used.map (number span))

/-- A field for the address of a referent, at an offset. -/
def field (offset : Nat) (referent : Referent) (span : Span) : Piece :=
  ⟨littleEndian 4 0, [⟨offset, referent, span⟩], []⟩

/-- A code address at an offset. -/
def target (offset : Nat) (destination : CodeTarget) : Piece :=
  match destination.place with
  | .symbol name => field offset (.symbol name) destination.span
  | .address value => ofBytes (littleEndian 4 value.toNat)

/-- Code addresses one behind another. -/
def targets (offset : Nat) (destinations : List CodeTarget) : Piece :=
  concat (destinations.zipIdx.map fun (destination, index) =>
    target (offset + 4 * index) destination)

/-- The case of a key. Of several, the first one counts. -/
def caseFor? (cases : List (Int32 × CodeTarget)) (key : Nat) : Option CodeTarget :=
  (cases.find? fun entry => entry.1.toInt == (key : Int)).map Prod.snd

/-- The warnings for the cases whose key occurred among those before. -/
def repeatedCases (seen : List Int32) : List (Int32 × CodeTarget) → Diagnostics
  | [] => []
  | (key, destination) :: rest =>
      if seen.contains key then
        (EncodingProblem.caseRepeated key).diagnose destination.span :: repeatedCases seen rest
      else repeatedCases (key :: seen) rest

/-- The entries of the table for some cases: one for each key up to the largest. -/
def entryCount (cases : List (Int32 × CodeTarget)) : Nat :=
  cases.foldl (fun count entry => max count (entry.1.toInt + 1).toNat) 0

/-- A dense table of addresses, indexed by key. A key without a case leads behind the
instruction, which ends with the table. -/
def targetTable (offset : Nat) (span : Span) (cases : List (Int32 × CodeTarget)) : Piece :=
  let count := entryCount cases
  let start := offset + 2
  let behind := (start + 4 * count).toUInt32
  let entry (key : Nat) : Piece :=
    match caseFor? cases key with
    | some destination => target (start + 4 * key) destination
    | none => field (start + 4 * key) (.unitOffset behind) span
  let table := concat ((List.range count).map entry)
  { u16 count ++ table with diagnostics := repeatedCases [] cases }

/-- A term; a pushed number follows its code. -/
def term (span : Span) : Term → Piece
  | .push value => u8 Term.pushCode.toNat ++ number span value
  | .apply operator => u8 operator.code.toNat

/-- An operand at an offset. -/
def operand (offset : Nat) (operand : Operand) : Piece :=
  let span := operand.span
  match operand.value with
  | .number value => number span value
  | .register value => u16 value.raw
  | .byte value | .flag value => u8 value.toNat
  | .messageId value => u24 value.toNat
  | .string value => string span value
  | .numberList values => u8 values.length ++ concat (values.map (number span))
  | .registerList values =>
      u8 values.length ++ ofBytes (values.flatMap fun value => littleEndian 2 value.raw)
  | .bitmask slots => bitmask span slots
  | .target destinations => targets offset destinations
  | .targetTable keys destinations => targetTable offset span (keys.zip destinations)
  | .paddedTable values => u16 values.length ++ concat (values.map (paddedNumber span))
  | .expression terms => concat (terms.map (term span)) ++ u8 Term.terminator.toNat
  | .byteList values => ofBytes values

/-- Operands one behind another, from an offset on. -/
def operands (offset : Nat) : List Operand → Piece
  | [] => empty
  | first :: rest =>
      let piece := operand offset first
      piece ++ operands (offset + piece.size) rest

/-- What stands before the operands: the opcode, except of raw data, and the type byte of the
layouts that have one. -/
def head (form : Form) (instruction : Instruction) : Piece :=
  (if instruction.opcode == .rawData then empty else u8 instruction.opcode.code.toNat)
    ++ if form.layout == .plain then empty else u8 instruction.subtype.toNat

/-- An instruction at an offset. One that the machine does not know has no bytes. -/
def instruction (offset : Nat) (instruction : Instruction) : Piece :=
  match Form.ofInstruction? instruction with
  | none => ⟨[], [], [EncodingProblem.noEncoding.diagnose instruction.span]⟩
  | some form =>
      if instruction.opcode == .select then
        ⟨[], [], [EncodingProblem.noEncoding.diagnose instruction.span]⟩
      else
        let head := head form instruction
        head ++ operands (offset + head.size) instruction.operands

/-- Instructions one behind another, each with its offset. -/
def instructions (offset : Nat) : List Instruction → List (Nat × Piece)
  | [] => []
  | first :: rest =>
      let piece := instruction offset first
      (offset, piece) :: instructions (offset + piece.size) rest

end Piece

structure EncodedLabel where
  name : Bytes
  offset : UInt32
  span : Span
deriving DecidableEq, Repr

structure EncodedUnit where
  name : Bytes
  bytes : Bytes
  relocations : List Relocation
  labels : List EncodedLabel
  instructionOffsets : List UInt32
  diagnostics : Diagnostics
deriving DecidableEq, Repr

namespace CodeUnit

/-- The unit as bytes. A label behind the last instruction marks the end. -/
def encode (unit : CodeUnit) : EncodedUnit :=
  let pieces := Piece.instructions 0 unit.instructions
  let whole := Piece.concat (pieces.map Prod.snd)
  let offsets := pieces.map fun (offset, _) => offset.toUInt32
  { name := unit.name
    bytes := whole.bytes
    relocations := whole.relocations
    labels := unit.labels.map fun label =>
      ⟨label.name, offsets[label.index]?.getD whole.size.toUInt32, label.span⟩
    instructionOffsets := offsets
    diagnostics := whole.diagnostics }

end CodeUnit

end NovelAsm
