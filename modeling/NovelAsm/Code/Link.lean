import NovelAsm.Code.Encode

/-!
Linking: encoded units are laid out one behind another from a base address, and
every relocation gets its address. The first unit that defines a label wins it,
and units win over the symbols of the outside. The program is entered at the
symbol `ENTRY`, or at its base.
-/

namespace NovelAsm

inductive LinkProblem where
  | unresolved (symbol : Bytes)
  | outsideUnit (unit : Bytes)
  | addressSpace (unit : Bytes)
deriving DecidableEq, Repr

namespace LinkProblem

def code : LinkProblem → String
  | .unresolved _ | .outsideUnit _ => "SASM-E4006"
  | .addressSpace _ => "SASM-E4007"

def message : LinkProblem → Bytes
  | .unresolved symbol => ascii "Symbol '" ++ symbol ++ ascii "' has no address."
  | .outsideUnit unit => ascii "Relocation lies outside unit '" ++ unit ++ ascii "'."
  | .addressSpace unit =>
      ascii "Unit '" ++ unit ++ ascii "' does not fit in the 32-bit address space."

def diagnose (problem : LinkProblem) (span : Span) : Diagnostic :=
  .error problem.code problem.message span

end LinkProblem

structure LinkedProgram where
  code : Bytes
  base : UInt32
  entry : UInt32
  symbols : NameMap UInt32
  diagnostics : Diagnostics
deriving DecidableEq, Repr

/-- An encoded unit with the place in its file from which its spans count. -/
structure PlacedUnit where
  unit : EncodedUnit
  origin : Location
deriving DecidableEq, Repr

namespace LinkedProgram

def succeeded (program : LinkedProgram) : Bool := !program.diagnostics.hasErrors

/-- The symbol at which a program is entered. -/
def entrySymbol : Bytes := ascii "ENTRY"

/-- The largest address up to which code may reach. -/
def addressLimit : Nat := 0xffffffff

/-- Units laid out so far: their starts, and the address behind them. -/
structure Layout where
  blocks : List Bytes
  starts : List (Nat × PlacedUnit)
  cursor : Nat
  symbols : NameMap UInt32
  diagnostics : Diagnostics

namespace Layout

def empty (base : UInt32) : Layout := ⟨[], [], base.toNat, .empty, []⟩

/-- The labels of a unit at its place, added to the symbols. -/
def defineLabels (start : Nat) (labels : List EncodedLabel) (symbols : NameMap UInt32) :
    NameMap UInt32 :=
  labels.foldl
    (fun symbols label => symbols.insertNew label.name (start + label.offset.toNat).toUInt32)
    symbols

/-- The layout with one more unit behind it. -/
def add (layout : Layout) (placed : PlacedUnit) : Layout :=
  { blocks := layout.blocks ++ [placed.unit.bytes]
    starts := layout.starts ++ [(layout.cursor, placed)]
    cursor := layout.cursor + placed.unit.bytes.length
    symbols := defineLabels layout.cursor placed.unit.labels layout.symbols
    diagnostics := layout.diagnostics }

/-- Reports that a unit reaches beyond the address space. -/
def refuse (layout : Layout) (placed : PlacedUnit) : Layout :=
  let span := (placed.unit.labels.head?.map EncodedLabel.span).getD .origin
  { layout with
    diagnostics := layout.diagnostics ++
      [(LinkProblem.addressSpace placed.unit.name).diagnose (span.rebase placed.origin)] }

/-- Lays out units one behind another. The first one that does not fit ends the layout, which
is told by the second part of the answer. -/
def place (layout : Layout) : List PlacedUnit → Layout × Bool
  | [] => (layout, true)
  | placed :: rest =>
      let layout :=
        { layout with
          diagnostics := layout.diagnostics ++ placed.unit.diagnostics.rebase placed.origin }
      if addressLimit < layout.cursor + placed.unit.bytes.length then
        (layout.refuse placed, false)
      else (layout.add placed).place rest

def code (layout : Layout) : Bytes := layout.blocks.flatten

end Layout

/-- The address for a relocation of a unit. -/
def addressOf? (symbols : NameMap UInt32) (start : Nat) : Referent → Except LinkProblem UInt32
  | .symbol name =>
      match symbols.find? name with
      | some address => .ok address
      | none => .error (.unresolved name)
  | .unitOffset offset => .ok (start + offset.toNat).toUInt32

/-- Writes the address of a relocation into the code. -/
def patchField (symbols : NameMap UInt32) (base start : Nat) (unit : Bytes)
    (code : Array UInt8) (relocation : Relocation) : Except LinkProblem (Array UInt8) := do
  let address ← addressOf? symbols start relocation.referent
  match patch? code (start - base + relocation.offset) address with
  | some code => .ok code
  | none => .error (.outsideUnit unit)

/-- Writes the addresses of all relocations of a unit; one that fails is reported. -/
def patchUnit (symbols : NameMap UInt32) (base start : Nat) (placed : PlacedUnit) :
    Array UInt8 → Diagnostics → List Relocation → Array UInt8 × Diagnostics
  | code, diagnostics, [] => (code, diagnostics)
  | code, diagnostics, relocation :: rest =>
      match patchField symbols base start placed.unit.name code relocation with
      | .ok code => patchUnit symbols base start placed code diagnostics rest
      | .error problem =>
          let diagnostic := problem.diagnose (relocation.span.rebase placed.origin)
          patchUnit symbols base start placed code (diagnostics ++ [diagnostic]) rest

/-- Writes the addresses of all units. -/
def patchAll (symbols : NameMap UInt32) (base : Nat) :
    Array UInt8 → Diagnostics → List (Nat × PlacedUnit) → Array UInt8 × Diagnostics
  | code, diagnostics, [] => (code, diagnostics)
  | code, diagnostics, (start, placed) :: rest =>
      let (code, diagnostics) :=
        patchUnit symbols base start placed code diagnostics placed.unit.relocations
      patchAll symbols base code diagnostics rest

/-- Links units with the symbols of the outside. When the units do not fit into the address
space, what was laid out before them is left as it is. -/
def link (base : UInt32) (externals : List (Bytes × UInt32)) (units : List PlacedUnit) :
    LinkedProgram :=
  match (Layout.empty base).place units with
  | (layout, false) => ⟨layout.code, base, base, layout.symbols, layout.diagnostics⟩
  | (layout, true) =>
      let symbols :=
        externals.foldl (fun symbols entry => symbols.insertNew entry.1 entry.2) layout.symbols
      let (code, diagnostics) :=
        patchAll symbols base.toNat layout.code.toArray layout.diagnostics layout.starts
      ⟨code.toList, base, (symbols.find? entrySymbol).getD base, symbols, diagnostics⟩

/-- Encodes and links code units. -/
def ofUnits (base : UInt32) (units : List CodeUnit) : LinkedProgram :=
  link base [] (units.map fun unit => ⟨unit.encode, .origin⟩)

end LinkedProgram

end NovelAsm
