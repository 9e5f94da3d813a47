import NovelAsm.Code.Link
import NovelAsm.Proofs.Erasure.Lowering

/-!
Code without places. What is encoded and linked depends on the places of a program in its
messages alone, so units that are the same without places link to the same code.
-/

namespace NovelAsm

/-- A relocation without its place in the text. -/
def Relocation.bare (relocation : Relocation) : Relocation := { relocation with span := .origin }

namespace EncodingProblem

theorem bare_diagnose (problem : EncodingProblem) (span : Span) :
    (problem.diagnose span).bare = problem.diagnose .origin := by
  cases problem <;> rfl

end EncodingProblem

namespace Piece

/-- A piece without places. -/
def bare (piece : Piece) : Piece :=
  { piece with
    relocations := piece.relocations.map Relocation.bare
    diagnostics := Diagnostics.bare piece.diagnostics }

@[simp] theorem bytes_bare (piece : Piece) : piece.bare.bytes = piece.bytes := rfl

@[simp] theorem size_bare (piece : Piece) : piece.bare.size = piece.size := rfl

@[simp] theorem ofBytes_bare (bytes : Bytes) : (ofBytes bytes).bare = ofBytes bytes := rfl

theorem bare_append (a b : Piece) : (a ++ b).bare = a.bare ++ b.bare := by
  change (⟨_, (a.relocations ++ b.relocations).map _, Diagnostics.bare (_ ++ _)⟩ : Piece) = _
  rw [List.map_append, Diagnostics.bare_append]
  rfl

theorem bare_concat (pieces : List Piece) : (concat pieces).bare = concat (pieces.map bare) := by
  simp [concat, bare, Diagnostics.bare, List.flatMap_map, List.map_flatMap]

theorem number_bare (span : Span) (value : Number) :
    (number span value).bare = number .origin value := by
  simp only [number]
  cases value.encode? with
  | some bytes => rfl
  | none => simp [bare, Diagnostics.bare, EncodingProblem.bare_diagnose]

theorem numbers_bare (span : Span) (values : List Number) :
    (concat (values.map (number span))).bare = concat (values.map (number .origin)) := by
  simp [bare_concat, Function.comp_def, number_bare]

theorem paddedNumber_bare (span : Span) (value : Number) :
    (paddedNumber span value).bare = paddedNumber .origin value := by
  simp only [paddedNumber, bare_append, ofBytes_bare, ← number_bare span, size_bare]

theorem string_bare (span : Span) (text : Bytes) :
    (string span text).bare = string .origin text := by
  simp only [string]
  split
  · simp [bare, Diagnostics.bare, EncodingProblem.bare_diagnose]
  · rfl

theorem bitmask_bare (span : Span) (slots : List Number) :
    (bitmask span slots).bare = bitmask .origin slots := by
  simp only [bitmask, bare_append, numbers_bare]
  rfl

theorem target_bare (offset : Nat) (destination : CodeTarget) :
    (target offset destination).bare = target offset destination.bare := by
  obtain ⟨place, span⟩ := destination
  cases place <;> rfl

theorem targets_bare (offset : Nat) (destinations : List CodeTarget) :
    (targets offset destinations).bare = targets offset (destinations.map CodeTarget.bare) := by
  simp only [targets, bare_concat, List.zipIdx_map, List.map_map, Function.comp_def, target_bare,
    Prod.map]
  rfl

/-- A key with its target, without places. -/
def bareCase (entry : Int32 × CodeTarget) : Int32 × CodeTarget := (entry.1, entry.2.bare)

theorem caseFor?_bare (cases : List (Int32 × CodeTarget)) (key : Nat) :
    caseFor? (cases.map bareCase) key = (caseFor? cases key).map CodeTarget.bare := by
  simp only [caseFor?, List.find?_map, Option.map_map]
  rfl

theorem repeatedCases_bare (seen : List Int32) (cases : List (Int32 × CodeTarget)) :
    repeatedCases seen (cases.map bareCase) = Diagnostics.bare (repeatedCases seen cases) := by
  induction cases generalizing seen with
  | nil => rfl
  | cons entry rest ih =>
      obtain ⟨key, destination⟩ := entry
      simp only [List.map_cons, bareCase, repeatedCases]
      split
      · simp only [Diagnostics.bare, List.map_cons, EncodingProblem.bare_diagnose]
        exact congrArg _ (ih seen)
      · exact ih (key :: seen)

theorem entryCount_bare (cases : List (Int32 × CodeTarget)) :
    entryCount (cases.map bareCase) = entryCount cases := by
  simp only [entryCount, List.foldl_map]
  rfl

/-- An entry of a dense table, whose keys without a case lead to `behind`. -/
def tableEntry (start : Nat) (behind : UInt32) (span : Span) (cases : List (Int32 × CodeTarget))
    (key : Nat) : Piece :=
  match caseFor? cases key with
  | some destination => target (start + 4 * key) destination
  | none => field (start + 4 * key) (.unitOffset behind) span

theorem tableEntry_bare (start : Nat) (behind : UInt32) (span : Span)
    (cases : List (Int32 × CodeTarget)) (key : Nat) :
    (tableEntry start behind span cases key).bare =
      tableEntry start behind .origin (cases.map bareCase) key := by
  rw [tableEntry, tableEntry, caseFor?_bare]
  cases caseFor? cases key with
  | some destination => exact target_bare _ _
  | none => rfl

theorem targetTable_eq (offset : Nat) (span : Span) (cases : List (Int32 × CodeTarget)) :
    targetTable offset span cases =
      { u16 (entryCount cases) ++ concat ((List.range (entryCount cases)).map
          (tableEntry (offset + 2) (offset + 2 + 4 * entryCount cases).toUInt32 span cases)) with
        diagnostics := repeatedCases [] cases } := rfl

theorem targetTable_bare (offset : Nat) (span : Span) (cases : List (Int32 × CodeTarget)) :
    (targetTable offset span cases).bare = targetTable offset .origin (cases.map bareCase) := by
  have hentries (behind : UInt32) (keys : List Nat) :
      concat (keys.map (tableEntry (offset + 2) behind .origin (cases.map bareCase))) =
        (concat (keys.map (tableEntry (offset + 2) behind span cases))).bare := by
    rw [bare_concat, List.map_map]
    exact congrArg concat (List.map_congr_left fun key _ => (tableEntry_bare _ _ _ _ key).symm)
  rw [targetTable_eq, targetTable_eq, entryCount_bare, repeatedCases_bare, hentries]
  rfl

theorem term_bare (span : Span) (value : Term) : (term span value).bare = term .origin value := by
  cases value with
  | push value =>
      simp only [term, bare_append, number_bare]
      rfl
  | apply operator => rfl

theorem operand_bare (offset : Nat) (value : Operand) :
    (operand offset value).bare = operand offset value.bare := by
  obtain ⟨value, span⟩ := value
  simp only [operand, Operand.bare]
  cases value with
  | number value => exact number_bare span value
  | string value => exact string_bare span value
  | numberList values =>
      simp only [OperandValue.mapTargets, bare_append, numbers_bare]
      rfl
  | bitmask slots => exact bitmask_bare span slots
  | target destinations => exact targets_bare offset destinations
  | targetTable keys destinations =>
      simp only [OperandValue.mapTargets, targetTable_bare, List.zip_map_right]
      rfl
  | paddedTable values =>
      simp only [OperandValue.mapTargets, bare_append, bare_concat, List.map_map,
        Function.comp_def, paddedNumber_bare]
      rfl
  | expression terms =>
      simp only [OperandValue.mapTargets, bare_append, bare_concat, List.map_map,
        Function.comp_def, term_bare]
      rfl
  | register | byte | flag | messageId | registerList | byteList => rfl

theorem operands_bare (offset : Nat) (values : List Operand) :
    (operands offset values).bare = operands offset (values.map Operand.bare) := by
  induction values generalizing offset with
  | nil => rfl
  | cons first rest ih =>
      rw [List.map_cons, operands, operands, bare_append, ih, ← operand_bare, size_bare]

theorem instruction_bare (offset : Nat) (value : Instruction) :
    (instruction offset value).bare = instruction offset value.bare := by
  have hform : Form.ofInstruction? value.bare = Form.ofInstruction? value := rfl
  have hrefuse : (⟨[], [], [EncodingProblem.noEncoding.diagnose value.span]⟩ : Piece).bare =
      ⟨[], [], [EncodingProblem.noEncoding.diagnose .origin]⟩ := rfl
  simp only [instruction, hform]
  cases Form.ofInstruction? value with
  | none => exact hrefuse
  | some form =>
      have hhead : (head form value).bare = head form value.bare := by
        simp only [head, bare_append, apply_ite bare]
        rfl
      simp only [apply_ite bare, bare_append, hhead, operands_bare, ← size_bare (head form value)]
      rfl

theorem instructions_bare (offset : Nat) (values : List Instruction) :
    instructions offset (values.map Instruction.bare) =
      (instructions offset values).map fun entry => (entry.1, entry.2.bare) := by
  induction values generalizing offset with
  | nil => rfl
  | cons first rest ih =>
      rw [List.map_cons, instructions, instructions, ← instruction_bare, size_bare, ih]
      rfl

end Piece

/-- An encoded label without its place. -/
def EncodedLabel.bare (label : EncodedLabel) : EncodedLabel := { label with span := .origin }

/-- An encoded unit without places. -/
def EncodedUnit.bare (unit : EncodedUnit) : EncodedUnit :=
  { unit with
    relocations := unit.relocations.map Relocation.bare
    labels := unit.labels.map EncodedLabel.bare
    diagnostics := Diagnostics.bare unit.diagnostics }

theorem CodeUnit.encode_bare (unit : CodeUnit) : unit.bare.encode = unit.encode.bare := by
  simp only [encode, bare, Piece.instructions_bare]
  generalize Piece.instructions 0 unit.instructions = pieces
  have hwhole : Piece.concat ((pieces.map fun entry => (entry.1, entry.2.bare)).map Prod.snd) =
      (Piece.concat (pieces.map Prod.snd)).bare := by
    rw [Piece.bare_concat, List.map_map, List.map_map]
    rfl
  have hoffsets : (pieces.map fun entry => (entry.1, entry.2.bare)).map
      (fun entry => entry.1.toUInt32) = pieces.map fun entry => entry.1.toUInt32 := by
    rw [List.map_map]
    rfl
  simp only [hwhole, hoffsets]
  simp only [EncodedUnit.bare, List.map_map]
  rfl

/-- A placed unit without places, that of the unit included. -/
def PlacedUnit.bare (placed : PlacedUnit) : PlacedUnit := ⟨placed.unit.bare, .origin⟩

theorem LinkProblem.bare_diagnose (problem : LinkProblem) (span : Span) :
    (problem.diagnose span).bare = problem.diagnose .origin := rfl

namespace LinkedProgram

/-- A program whose diagnostics have no places. -/
def bare (program : LinkedProgram) : LinkedProgram :=
  { program with diagnostics := Diagnostics.bare program.diagnostics }

@[simp] theorem code_bare (program : LinkedProgram) : program.bare.code = program.code := rfl

@[simp] theorem symbols_bare (program : LinkedProgram) :
    program.bare.symbols = program.symbols := rfl

@[simp] theorem entry_bare (program : LinkedProgram) : program.bare.entry = program.entry := rfl

@[simp] theorem succeeded_bare (program : LinkedProgram) :
    program.bare.succeeded = program.succeeded := by
  rw [succeeded, bare, Diagnostics.hasErrors_bare, succeeded]

/-- The start of a unit with the unit, without places. -/
def bareStart (entry : Nat × PlacedUnit) : Nat × PlacedUnit := (entry.1, entry.2.bare)

/-- Code with diagnostics that have no places. -/
def barePatched (patched : Array UInt8 × Diagnostics) : Array UInt8 × Diagnostics :=
  (patched.1, Diagnostics.bare patched.2)

namespace Layout

/-- A layout without places. -/
def bare (layout : Layout) : Layout :=
  { layout with
    starts := layout.starts.map bareStart
    diagnostics := Diagnostics.bare layout.diagnostics }

theorem defineLabels_bare (start : Nat) (labels : List EncodedLabel) (symbols : NameMap UInt32) :
    defineLabels start (labels.map EncodedLabel.bare) symbols =
      defineLabels start labels symbols := by
  simp only [defineLabels, List.foldl_map]
  rfl

theorem add_bare (layout : Layout) (placed : PlacedUnit) :
    layout.bare.add placed.bare = (layout.add placed).bare := by
  simp only [add, bare, PlacedUnit.bare, EncodedUnit.bare, defineLabels_bare, List.map_append]
  rfl

theorem refuse_bare (layout : Layout) (placed : PlacedUnit) :
    layout.bare.refuse placed.bare = (layout.refuse placed).bare := by
  have hspan : ((placed.unit.labels.map EncodedLabel.bare).head?.map EncodedLabel.span).getD
      .origin = .origin := by
    cases placed.unit.labels <;> rfl
  simp only [refuse, bare, PlacedUnit.bare, EncodedUnit.bare, hspan, Span.rebase_origin,
    Diagnostics.bare_append]
  rfl

theorem place_bare (layout : Layout) (units : List PlacedUnit) :
    layout.bare.place (units.map PlacedUnit.bare) =
      ((layout.place units).1.bare, (layout.place units).2) := by
  induction units generalizing layout with
  | nil => rfl
  | cons placed rest ih =>
      let reported : Layout := { layout with
        diagnostics := layout.diagnostics ++ placed.unit.diagnostics.rebase placed.origin }
      have hreported : { layout.bare with
          diagnostics := layout.bare.diagnostics ++
            placed.bare.unit.diagnostics.rebase placed.bare.origin } = reported.bare := by
        simp only [bare, reported, PlacedUnit.bare, EncodedUnit.bare, Diagnostics.bare_append,
          Diagnostics.bare_rebase, Diagnostics.rebase_bare]
      rw [List.map_cons, place, place]
      simp only [hreported]
      change (if addressLimit < reported.cursor + placed.unit.bytes.length then
          (reported.bare.refuse placed.bare, false) else
          (reported.bare.add placed.bare).place (rest.map PlacedUnit.bare)) = _
      rw [refuse_bare, add_bare, ih]
      split <;> rfl

end Layout

theorem patchUnit_bare (symbols : NameMap UInt32) (base start : Nat) (placed : PlacedUnit)
    (code : Array UInt8) (diagnostics : Diagnostics) (relocations : List Relocation) :
    patchUnit symbols base start placed.bare code (Diagnostics.bare diagnostics)
        (relocations.map Relocation.bare) =
      barePatched (patchUnit symbols base start placed code diagnostics relocations) := by
  induction relocations generalizing code diagnostics with
  | nil => rfl
  | cons relocation rest ih =>
      have hfield : patchField symbols base start placed.bare.unit.name code relocation.bare =
          patchField symbols base start placed.unit.name code relocation := rfl
      have hspan : relocation.bare.span.rebase placed.bare.origin = .origin := Span.rebase_origin
      simp only [List.map_cons, patchUnit, hfield, hspan]
      cases patchField symbols base start placed.unit.name code relocation with
      | ok code => exact ih code diagnostics
      | error problem =>
          rw [← ih, Diagnostics.bare_append]
          rfl

theorem patchAll_bare (symbols : NameMap UInt32) (base : Nat) (code : Array UInt8)
    (diagnostics : Diagnostics) (starts : List (Nat × PlacedUnit)) :
    patchAll symbols base code (Diagnostics.bare diagnostics) (starts.map bareStart) =
      barePatched (patchAll symbols base code diagnostics starts) := by
  induction starts generalizing code diagnostics with
  | nil => rfl
  | cons entry rest ih =>
      obtain ⟨start, placed⟩ := entry
      have hunit := patchUnit_bare symbols base start placed code diagnostics
        placed.unit.relocations
      simp only [List.map_cons, bareStart, patchAll]
      rw [show patchUnit symbols base start placed.bare code (Diagnostics.bare diagnostics)
        placed.bare.unit.relocations = _ from hunit]
      exact ih _ _

/-- Units without places are linked to the program without places. -/
theorem link_bare (base : UInt32) (externals : List (Bytes × UInt32)) (units : List PlacedUnit) :
    link base externals (units.map PlacedUnit.bare) = (link base externals units).bare := by
  have hplace : (Layout.empty base).place (units.map PlacedUnit.bare) = _ :=
    Layout.place_bare (.empty base) units
  rw [link, link, hplace]
  generalize (Layout.empty base).place units = placed
  obtain ⟨layout, fits⟩ := placed
  cases fits with
  | false => rfl
  | true =>
      simp only [Layout.bare, Layout.code, patchAll_bare]
      rfl

/-- Units that are the same without places are linked to the same code. -/
theorem link_congr {units others : List PlacedUnit}
    (h : units.map PlacedUnit.bare = others.map PlacedUnit.bare) (base : UInt32)
    (externals : List (Bytes × UInt32)) :
    (link base externals units).bare = (link base externals others).bare := by
  rw [← link_bare, ← link_bare, h]

end LinkedProgram

end NovelAsm
