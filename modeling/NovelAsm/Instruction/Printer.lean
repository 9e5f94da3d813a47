import NovelAsm.Instruction.Table
import NovelAsm.Literal.Quoted
import NovelAsm.Term.Expression

/-!
Instructions in source notation. What the machine knows is printed so that it
can be assembled again; anything else gets a placeholder between angle brackets.
-/

namespace NovelAsm

def commaJoin (texts : List Bytes) : Bytes := Bytes.join (ascii ", ") texts

def bracketed (text : Bytes) : Bytes := ascii "[" ++ text ++ ascii "]"

def joinNumbers (numbers : List Number) : Bytes := commaJoin (numbers.map Number.text)

/-- A byte with both of its hexadecimal digits. -/
def hexByte (b : UInt8) : Bytes := ascii "0x" ++ hex 2 b.toNat

namespace OperandValue

/-- The slots of a bitmask without the zeros at its end. -/
def usedSlots (slots : List Number) : List Number :=
  (slots.reverse.dropWhile (· == .constant 0)).reverse

/-- The cases of a table. A case without a key has its position for one. -/
def caseTexts (keys : List Int32) (targets : List CodeTarget) : List Bytes :=
  targets.zipIdx.map fun (destination, index) =>
    let key := (keys[index]?.map Int32.toInt).getD index
    signedDecimal key ++ ascii " => " ++ destination.place.text

def text : OperandValue → Bytes
  | .number value => value.text
  | .register value => value.name
  | .byte value | .flag value | .messageId value => decimal value.toNat
  | .string value => Literal.quote value
  | .numberList values => joinNumbers values
  | .registerList values => commaJoin (values.map Register.name)
  | .bitmask slots => bracketed (joinNumbers (usedSlots slots))
  | .target targets => ((targets.head?.map (·.place.text)).getD (ascii "0"))
  | .targetTable _ [] => ascii "\x7b\x7d"
  | .targetTable keys targets =>
      ascii "\x7b " ++ commaJoin (caseTexts keys targets) ++ ascii " \x7d"
  | .paddedTable values => bracketed (joinNumbers values)
  | .expression terms => (Term.expression? terms).getD (ascii "<malformed expression>")
  | .byteList values => commaJoin (values.map hexByte)

/-- Whether an operand is a list that stands for no operand at all. -/
def isEmptyList : OperandValue → Bool
  | .numberList values => values.isEmpty
  | .registerList values => values.isEmpty
  | _ => false

/-- The number of an operand of a condition. -/
def conditionNumber : OperandValue → Number
  | .number value => value
  | _ => .constant 0

end OperandValue

namespace Instruction

/-- The condition of a type byte on two numbers. -/
def conditionText (subtype : UInt8) (left right : Bytes) : Bytes :=
  let condition := Condition.ofCode? (subtype &&& ~~~negatedBit)
  let comparison :=
    if condition == some .bitSet then left ++ ascii " & (1 << " ++ right ++ ascii ")"
    else
      left ++ ascii " " ++ ascii (condition.getD .equal).operator ++ ascii " " ++ right
  if subtype &&& negatedBit != 0 then ascii "!(" ++ comparison ++ ascii ")" else comparison

/-- The condition and the target of a conditional jump. -/
def conditionalText (instruction : Instruction) : Bytes :=
  match instruction.operands with
  | [left, right, target] =>
      conditionText instruction.subtype left.value.conditionNumber.text
        right.value.conditionNumber.text ++ ascii ", " ++ target.value.text
  | _ => ascii "<malformed condition>"

/-- The name of a flag operand, if its value is not the normal one of its row. -/
def flagText? (form : Form) : OperandValue → Option Bytes
  | .flag value =>
      match form.slots.reverse.find? Slot.isFlag with
      | some (.flag name normal) =>
          if value == normal.toUInt32 then none else some (ascii name.text)
      | _ => none
  | _ => none

/-- The text of an operand that is no flag and no empty list. -/
def positionalText? : OperandValue → Option Bytes
  | .flag _ => none
  | value => if value.isEmptyList then none else some value.text

/-- The operands of an instruction, flags last. -/
def operandTexts (form : Form) (instruction : Instruction) : List Bytes :=
  let values := instruction.operands.map Operand.value
  values.filterMap positionalText? ++ values.filterMap (flagText? form)

/-- An instruction in source notation. -/
def text (instruction : Instruction) : Bytes :=
  match Form.ofInstruction? instruction with
  | none => ascii "<unknown opcode 0x" ++ hex 0 instruction.opcode.code.toNat ++ ascii ">"
  | some form =>
      match form.layout with
      | .conditional => ascii form.mnemonic ++ ascii " " ++ instruction.conditionalText
      | _ =>
          match operandTexts form instruction with
          | [] => ascii form.mnemonic
          | texts => ascii form.mnemonic ++ ascii " " ++ commaJoin texts

end Instruction

end NovelAsm
