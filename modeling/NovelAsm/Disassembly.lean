import NovelAsm.Disassembly.Reassembly

/-!
Disassembly: a block of code as source text that is assembled to the same bytes
again. Every entry of a sweep becomes an instruction line, if its text stands
for exactly its bytes, and otherwise lines of raw data, with the text as a
comment. Leftover bytes that stand together share their lines.
-/

namespace NovelAsm

inductive DisassemblyLine where
  | label (name : Bytes)
  | instruction (text : Bytes)
  /-- Raw bytes with a remark, which may be empty. -/
  | data (bytes remark : Bytes)
deriving DecidableEq, Repr

namespace DisassemblyLine

def remarkText (remark : Bytes) : Bytes :=
  if remark.isEmpty then [] else ascii " // " ++ remark

/-- A line with its line feed. -/
def text : DisassemblyLine → Bytes
  | .label name => name ++ ascii ":\n"
  | .instruction text => ascii "    " ++ text ++ ascii "\n"
  | .data bytes remark =>
      ascii "    db " ++ commaJoin (bytes.map hexByte) ++ remarkText remark ++ ascii "\n"

def isInstruction : DisassemblyLine → Bool
  | .instruction _ => true
  | _ => false

/-- The raw bytes of a line. -/
def rawBytes : DisassemblyLine → Bytes
  | .data bytes _ => bytes
  | _ => []

/-- How many raw bytes a line holds at most. -/
def dataWidth : Nat := 16

/-- Whether a text would not stay within its line, or not be seen in it. -/
def hasControls (text : Bytes) : Bool := text.any fun b => b < 0x20 || b == 0x7f

/-- Bytes in pieces of the width of a line. -/
def rows (bytes : Bytes) : List Bytes :=
  (List.range ((bytes.length + dataWidth - 1) / dataWidth)).map fun row =>
    (bytes.drop (dataWidth * row)).take dataWidth

/-- Raw bytes in as many lines as they need; the first one bears the remark. -/
def ofBytes (bytes remark : Bytes) : List DisassemblyLine :=
  (rows bytes).zipIdx.map fun (row, index) => .data row (if index == 0 then remark else [])

end DisassemblyLine

/-- Lines as they are written, with the counts that are kept meanwhile: of the instructions, and of
the bytes that are written as raw data. -/
structure WrittenLines where
  lines : List DisassemblyLine := []
  instructionCount : Nat := 0
  rawByteCount : Nat := 0
deriving DecidableEq, Repr

namespace WrittenLines

/-- Lines behind others. -/
def append (written behind : WrittenLines) : WrittenLines :=
  ⟨written.lines ++ behind.lines, written.instructionCount + behind.instructionCount,
    written.rawByteCount + behind.rawByteCount⟩

instance : Append WrittenLines := ⟨append⟩

def label (name : Bytes) : WrittenLines := { lines := [.label name] }

def instruction (text : Bytes) : WrittenLines :=
  { lines := [.instruction text], instructionCount := 1 }

/-- Raw bytes with a remark, which may be empty. -/
def raw (bytes remark : Bytes) : WrittenLines :=
  { lines := DisassemblyLine.ofBytes bytes remark, rawByteCount := bytes.length }

/-- The lines for an instruction of an entry. -/
def ofInstruction (labels : CodeLabels) (scope : Scope) (entry : SweepEntry)
    (found : Instruction) : WrittenLines :=
  let text := (found.mapTargets labels.symbolize).text
  if labels.reproduces scope entry text then instruction text
  else raw entry.bytes (if DisassemblyLine.hasControls text then [] else text)

/-- The lines for entries. `pending` holds the leftover bytes before them that have no line
yet, fewer than a line holds. -/
def ofEntries (labels : CodeLabels) (scope : Scope) (pending : Bytes) :
    List SweepEntry → WrittenLines
  | [] => raw pending []
  | entry :: rest =>
      let (before, pending) :=
        match labels.find? entry.offset with
        | some name => (raw pending [] ++ label name, [])
        | none => ({}, pending)
      before ++
        match entry.content with
        | .instruction found =>
            raw pending [] ++ ofInstruction labels scope entry found
              ++ ofEntries labels scope [] rest
        | .leftover _ =>
            let pending := pending ++ entry.bytes
            if pending.length == DisassemblyLine.dataWidth then
              raw pending [] ++ ofEntries labels scope [] rest
            else ofEntries labels scope pending rest

/-- The lines of a block. One that holds nothing has the label of its beginning. -/
def ofBlock (labels : CodeLabels) : List SweepEntry → WrittenLines
  | [] => { lines := (labels.find? 0).toList.map DisassemblyLine.label }
  | entries => ofEntries labels labels.probeScope [] entries

end WrittenLines

structure Disassembly extends WrittenLines where
  base : UInt32
  entry : UInt32
  diagnostics : Diagnostics
deriving DecidableEq, Repr

namespace Disassembly

/-- Disassembles a block of code at a base address. It is entered at its base unless told
otherwise. -/
def ofCode (code : Bytes) (base : UInt32) (entry : Option UInt32) : Disassembly :=
  let entries := SweepEntry.sweep code
  let entry := entry.getD base
  { toWrittenLines := .ofBlock (.ofEntries base entry entries) entries
    base := base
    entry := entry
    diagnostics := SweepEntry.warnings false entries }

/-- A comment with both addresses. -/
def header (disassembly : Disassembly) : Bytes :=
  ascii "// base 0x" ++ hex 8 disassembly.base.toNat ++ ascii ", entry 0x"
    ++ hex 8 disassembly.entry.toNat ++ ascii "\n"

def text (disassembly : Disassembly) : Bytes :=
  disassembly.header ++ disassembly.lines.flatMap DisassemblyLine.text

end Disassembly

end NovelAsm
