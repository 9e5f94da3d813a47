import NovelAsm.Fingerprint
import NovelAsm.Instruction.Printer
import NovelAsm.Routine

/-!
Code units: a routine as machine instructions. A label marks the instruction in
front of which it stands. The listing shows a unit to a reader; the canonical
text holds all that its code depends on, and no spans, so its fingerprint stays
the same when only the layout of a source changes.
-/

namespace NovelAsm

/-- A name with the index of the first instruction behind it. -/
structure LabelMark where
  name : Bytes
  index : Nat
  span : Span
deriving DecidableEq, Repr

structure CodeUnit where
  kind : RoutineKind
  name : Bytes
  instructions : List Instruction
  labels : List LabelMark
deriving DecidableEq, Repr

namespace CodeUnit

def empty (kind : RoutineKind) (name : Bytes) : CodeUnit := ⟨kind, name, [], []⟩

/-- Adds instructions at the end. -/
def append (unit : CodeUnit) (instructions : List Instruction) : CodeUnit :=
  { unit with instructions := unit.instructions ++ instructions }

/-- Puts a label at the end. -/
def placeLabel (unit : CodeUnit) (name : Bytes) (span : Span) : CodeUnit :=
  { unit with labels := unit.labels ++ [⟨name, unit.instructions.length, span⟩] }

def labelLines (labels : List LabelMark) : Bytes :=
  labels.flatMap fun label => ascii "  " ++ label.name ++ ascii ":\n"

/-- The lines of the instructions from an index on, with the labels between them. Labels are
shown in their order, each at its index. -/
def bodyLines (index : Nat) (labels : List LabelMark) : List Instruction → Bytes
  | [] => labelLines (labels.takeWhile (·.index == index))
  | instruction :: rest =>
      labelLines (labels.takeWhile (·.index == index))
        ++ ascii "    " ++ instruction.text ++ ascii "\n"
        ++ bodyLines (index + 1) (labels.dropWhile (·.index == index)) rest

/-- A unit as shown to a reader. -/
def listing (unit : CodeUnit) : Bytes :=
  ascii unit.kind.name ++ ascii " " ++ unit.name ++ ascii "\n"
    ++ bodyLines 0 unit.labels unit.instructions

/-- One line of the canonical text for an instruction. -/
def canonicalLine (index : Nat) (instruction : Instruction) : Bytes :=
  ascii "inst " ++ decimal index ++ ascii " " ++ decimal instruction.opcode.code.toNat
    ++ ascii ":" ++ decimal instruction.subtype.toNat ++ ascii " " ++ instruction.text
    ++ ascii "\n"

/-- All that the code of a unit depends on. -/
def canonicalText (unit : CodeUnit) : Bytes :=
  ascii "unit " ++ decimal unit.kind.code ++ ascii " " ++ unit.name ++ ascii "\n"
    ++ (unit.labels.flatMap fun label =>
      ascii "label " ++ label.name ++ ascii " @" ++ decimal label.index ++ ascii "\n")
    ++ unit.instructions.zipIdx.flatMap fun (instruction, index) =>
      canonicalLine index instruction

def fingerprint (unit : CodeUnit) : Fingerprint := .ofText unit.canonicalText

end CodeUnit

end NovelAsm
