import NovelAsm.Proofs.Code.Linking
import NovelAsm.Proofs.Erasure.Code
import NovelAsm.Proofs.NameMap
import NovelAsm.Proofs.Renaming.Lowering

/-!
Code with other names. A name in a code unit stands for an address, which is filled in when the
unit is linked. So units with other names are linked to the same code, and the names have the
addresses there that the ones before them had (`LinkedProgram.ofUnits_rename`).
-/

namespace NovelAsm

variable (symbol : Bytes → Bytes)

def Referent.rename : Referent → Referent
  | .symbol name => .symbol (symbol name)
  | .unitOffset offset => .unitOffset offset

def Relocation.rename (relocation : Relocation) : Relocation :=
  { relocation with referent := relocation.referent.rename symbol }

namespace Piece

/-- A piece that waits for the addresses of other names. -/
def rename (piece : Piece) : Piece :=
  { piece with relocations := piece.relocations.map (Relocation.rename symbol) }

@[simp] theorem size_rename (piece : Piece) : (piece.rename symbol).size = piece.size := rfl

theorem rename_append (a b : Piece) :
    (a ++ b).rename symbol = a.rename symbol ++ b.rename symbol := by
  change (⟨_, (a.relocations ++ b.relocations).map _, _⟩ : Piece) = _
  rw [List.map_append]
  rfl

theorem rename_concat (pieces : List Piece) :
    (concat pieces).rename symbol = concat (pieces.map (rename symbol)) := by
  simp [concat, rename, List.flatMap_map, List.map_flatMap]

variable {symbol}

/-- A piece that waits for no address. -/
theorem rename_of_nil {piece : Piece} (h : piece.relocations = []) :
    piece.rename symbol = piece := by
  rw [rename, h, List.map_nil, ← h]

theorem target_rename (offset : Nat) (destination : CodeTarget) :
    target offset (destination.rename symbol) = (target offset destination).rename symbol := by
  obtain ⟨place, span⟩ := destination
  cases place <;> rfl

theorem targets_rename (offset : Nat) (destinations : List CodeTarget) :
    targets offset (destinations.map (CodeTarget.rename symbol)) =
      (targets offset destinations).rename symbol := by
  simp only [targets, rename_concat, List.zipIdx_map, List.map_map, Function.comp_def, Prod.map]
  simp only [← target_rename]
  rfl

/-- A key with its target under its other name. -/
def renameCase (symbol : Bytes → Bytes) (entry : Int32 × CodeTarget) : Int32 × CodeTarget :=
  (entry.1, entry.2.rename symbol)

theorem caseFor?_rename (cases : List (Int32 × CodeTarget)) (key : Nat) :
    caseFor? (cases.map (renameCase symbol)) key =
      (caseFor? cases key).map (CodeTarget.rename symbol) := by
  simp only [caseFor?, List.find?_map, Option.map_map]
  rfl

theorem repeatedCases_rename (seen : List Int32) (cases : List (Int32 × CodeTarget)) :
    repeatedCases seen (cases.map (renameCase symbol)) = repeatedCases seen cases := by
  induction cases generalizing seen with
  | nil => rfl
  | cons entry rest ih =>
      simp only [List.map_cons, renameCase, repeatedCases]
      split
      · exact congrArg _ (ih seen)
      · exact ih (entry.1 :: seen)

theorem entryCount_rename (cases : List (Int32 × CodeTarget)) :
    entryCount (cases.map (renameCase symbol)) = entryCount cases := by
  simp only [entryCount, List.foldl_map]
  rfl

theorem tableEntry_rename (start : Nat) (behind : UInt32) (span : Span)
    (cases : List (Int32 × CodeTarget)) (key : Nat) :
    tableEntry start behind span (cases.map (renameCase symbol)) key =
      (tableEntry start behind span cases key).rename symbol := by
  rw [tableEntry, tableEntry, caseFor?_rename]
  cases caseFor? cases key with
  | some destination => exact target_rename _ _
  | none => rfl

theorem targetTable_rename (offset : Nat) (span : Span) (cases : List (Int32 × CodeTarget)) :
    targetTable offset span (cases.map (renameCase symbol)) =
      (targetTable offset span cases).rename symbol := by
  have hentries (behind : UInt32) (keys : List Nat) :
      concat (keys.map (tableEntry (offset + 2) behind span (cases.map (renameCase symbol)))) =
        (concat (keys.map (tableEntry (offset + 2) behind span cases))).rename symbol := by
    rw [rename_concat, List.map_map]
    exact congrArg concat (List.map_congr_left fun key _ => tableEntry_rename _ _ _ _ key)
  rw [targetTable_eq, targetTable_eq, entryCount_rename, repeatedCases_rename, hentries]
  rfl

theorem operand_rename (offset : Nat) (value : Operand) :
    operand offset (value.rename symbol) = (operand offset value).rename symbol := by
  obtain ⟨value, span⟩ := value
  cases value with
  | target destinations => exact targets_rename offset destinations
  | targetTable keys destinations =>
      have hcases : keys.zip (destinations.map (CodeTarget.rename symbol)) =
          (keys.zip destinations).map (renameCase symbol) := by
        rw [List.zip_map_right]
        rfl
      change targetTable offset span (keys.zip (destinations.map (CodeTarget.rename symbol))) = _
      rw [hcases]
      exact targetTable_rename offset span (keys.zip destinations)
  | _ =>
      refine (rename_of_nil ?_).symm
      exact relocations_plain span (fun _ heq => by cases heq) fun _ _ heq => by cases heq

theorem operands_rename (offset : Nat) (values : List Operand) :
    operands offset (values.map (Operand.rename symbol)) =
      (operands offset values).rename symbol := by
  induction values generalizing offset with
  | nil => rfl
  | cons first rest ih =>
      rw [List.map_cons, operands, operands, rename_append, ih, operand_rename, size_rename]

theorem instruction_rename (offset : Nat) (value : Instruction) :
    instruction offset (value.rename symbol) = (instruction offset value).rename symbol := by
  have hform : Form.ofInstruction? (value.rename symbol) = Form.ofInstruction? value := rfl
  simp only [instruction, hform]
  cases Form.ofInstruction? value with
  | none => rfl
  | some form =>
      have hhead : head form (value.rename symbol) = head form value := rfl
      have hsame := @rename_of_nil symbol _ (relocations_head form value)
      simp only [hhead, apply_ite (rename symbol), rename_append, hsame]
      rw [← operands_rename]
      rfl

theorem instructions_rename (offset : Nat) (values : List Instruction) :
    instructions offset (values.map (Instruction.rename symbol)) =
      (instructions offset values).map fun entry => (entry.1, entry.2.rename symbol) := by
  induction values generalizing offset with
  | nil => rfl
  | cons first rest ih =>
      rw [List.map_cons, instructions, instructions, instruction_rename, size_rename, ih]
      rfl

end Piece

def EncodedLabel.rename (label : EncodedLabel) : EncodedLabel :=
  { label with name := symbol label.name }

/-- An encoded unit with other names. -/
def EncodedUnit.rename (unit : EncodedUnit) : EncodedUnit :=
  { unit with
    name := symbol unit.name
    relocations := unit.relocations.map (Relocation.rename symbol)
    labels := unit.labels.map (EncodedLabel.rename symbol) }

variable {symbol}

theorem CodeUnit.encode_rename (unit : CodeUnit) :
    (unit.rename symbol).encode = unit.encode.rename symbol := by
  simp only [encode, rename, Piece.instructions_rename]
  generalize Piece.instructions 0 unit.instructions = pieces
  have hwhole : Piece.concat ((pieces.map fun entry => (entry.1, entry.2.rename symbol)).map
      Prod.snd) = (Piece.concat (pieces.map Prod.snd)).rename symbol := by
    rw [Piece.rename_concat, List.map_map, List.map_map]
    rfl
  have hoffsets : (pieces.map fun entry => (entry.1, entry.2.rename symbol)).map
      (fun entry => entry.1.toUInt32) = pieces.map fun entry => entry.1.toUInt32 := by
    rw [List.map_map]
    rfl
  simp only [hwhole, hoffsets]
  simp only [EncodedUnit.rename, List.map_map]
  rfl

/-- A placed unit with other names. -/
def PlacedUnit.rename (symbol : Bytes → Bytes) (placed : PlacedUnit) : PlacedUnit :=
  ⟨placed.unit.rename symbol, placed.origin⟩

/-- A table in which what was found under a name is found under its other name. -/
structure NameMap.Renamed {α : Type} (symbol : Bytes → Bytes) (map other : NameMap α) : Prop where
  sorted : map.Sorted
  otherSorted : other.Sorted
  find? : ∀ name, other.find? (symbol name) = map.find? name

theorem NameMap.Renamed.insertNew {α : Type} {map other : NameMap α} (h : map.Renamed symbol other)
    (hinjective : Function.Injective symbol) (name : Bytes) (value : α) :
    (map.insertNew name value).Renamed symbol (other.insertNew (symbol name) value) where
  sorted := h.sorted.insertNew name value
  otherSorted := h.otherSorted.insertNew (symbol name) value
  find? wanted := by
    rw [find?_insertNew h.otherSorted, find?_insertNew h.sorted, h.find?]
    simp only [hinjective.eq_iff]

namespace LinkedProgram

/-- A program in which symbols have other names and the same addresses. -/
structure Renamed (symbol : Bytes → Bytes) (program other : LinkedProgram) : Prop where
  code : other.code = program.code
  base : other.base = program.base
  entry : other.entry = program.entry
  symbols : program.symbols.Renamed symbol other.symbols
  succeeded : other.succeeded = program.succeeded

namespace Layout

/-- Units laid out with other names. -/
structure Renamed (symbol : Bytes → Bytes) (layout other : Layout) : Prop where
  blocks : other.blocks = layout.blocks
  starts : other.starts = layout.starts.map fun entry => (entry.1, entry.2.rename symbol)
  cursor : other.cursor = layout.cursor
  symbols : layout.symbols.Renamed symbol other.symbols
  errors : other.diagnostics.hasErrors = layout.diagnostics.hasErrors

variable {layout other : Layout}

theorem defineLabels_rename (hinjective : Function.Injective symbol) (start : Nat)
    (labels : List EncodedLabel) {symbols others : NameMap UInt32}
    (h : symbols.Renamed symbol others) :
    (defineLabels start labels symbols).Renamed symbol
      (defineLabels start (labels.map (EncodedLabel.rename symbol)) others) := by
  induction labels generalizing symbols others with
  | nil => exact h
  | cons label rest ih => exact ih (h.insertNew hinjective label.name _)

theorem Renamed.add (h : Renamed symbol layout other) (hinjective : Function.Injective symbol)
    (placed : PlacedUnit) :
    Renamed symbol (layout.add placed) (other.add (placed.rename symbol)) where
  blocks := by rw [Layout.add, h.blocks]; rfl
  starts := by
    rw [Layout.add, h.starts, h.cursor, Layout.add, List.map_append]
    rfl
  cursor := by rw [Layout.add, h.cursor]; rfl
  symbols := by
    change (defineLabels layout.cursor placed.unit.labels layout.symbols).Renamed symbol
      (defineLabels other.cursor (placed.unit.labels.map (EncodedLabel.rename symbol))
        other.symbols)
    rw [h.cursor]
    exact defineLabels_rename hinjective _ _ h.symbols
  errors := h.errors

theorem Renamed.refuse (h : Renamed symbol layout other) (placed : PlacedUnit) :
    Renamed symbol (layout.refuse placed) (other.refuse (placed.rename symbol)) where
  blocks := h.blocks
  starts := h.starts
  cursor := h.cursor
  symbols := h.symbols
  errors := by
    rw [Layout.refuse, Layout.refuse, Diagnostics.hasErrors_append, Diagnostics.hasErrors_append,
      h.errors]
    rfl

theorem Renamed.place (h : Renamed symbol layout other) (hinjective : Function.Injective symbol)
    (units : List PlacedUnit) :
    Renamed symbol (layout.place units).1 (other.place (units.map (PlacedUnit.rename symbol))).1 ∧
      (other.place (units.map (PlacedUnit.rename symbol))).2 = (layout.place units).2 := by
  induction units generalizing layout other with
  | nil => exact ⟨h, rfl⟩
  | cons placed rest ih =>
      let reported : Layout := { layout with
        diagnostics := layout.diagnostics ++ placed.unit.diagnostics.rebase placed.origin }
      let twin : Layout := { other with
        diagnostics := other.diagnostics ++ placed.unit.diagnostics.rebase placed.origin }
      have hreported : Renamed symbol reported twin := by
        refine ⟨h.blocks, h.starts, h.cursor, h.symbols, ?_⟩
        rw [Diagnostics.hasErrors_append, Diagnostics.hasErrors_append, h.errors]
      have hplace : layout.place (placed :: rest) =
          if addressLimit < layout.cursor + placed.unit.bytes.length then
            (reported.refuse placed, false)
          else (reported.add placed).place rest := rfl
      have hother : other.place ((placed :: rest).map (PlacedUnit.rename symbol)) =
          if addressLimit < layout.cursor + placed.unit.bytes.length then
            (twin.refuse (placed.rename symbol), false)
          else (twin.add (placed.rename symbol)).place (rest.map (PlacedUnit.rename symbol)) := by
        rw [← h.cursor]
        rfl
      rw [hplace, hother]
      split
      · exact ⟨hreported.refuse placed, rfl⟩
      · exact ih (hreported.add hinjective placed)

end Layout

variable {symbols others : NameMap UInt32}

/-- A relocation that has an address is written where it stands. -/
theorem toOption_patchField (symbols : NameMap UInt32) (base start : Nat) (unit : Bytes)
    (code : Array UInt8) (relocation : Relocation) :
    (patchField symbols base start unit code relocation).toOption =
      (addressOf? symbols start relocation.referent).toOption.bind
        (patch? code (start - base + relocation.offset)) := by
  rw [patchField]
  cases addressOf? symbols start relocation.referent with
  | error problem => rfl
  | ok address =>
      simp only [Bind.bind, Except.bind, Except.toOption, Option.bind_some]
      cases patch? code (start - base + relocation.offset) address <;> rfl

theorem addressOf?_rename (h : symbols.Renamed symbol others) (start : Nat) (referent : Referent) :
    (addressOf? others start (referent.rename symbol)).toOption =
      (addressOf? symbols start referent).toOption := by
  cases referent with
  | unitOffset place => rfl
  | symbol name =>
      simp only [Referent.rename, addressOf?, h.find?]
      cases symbols.find? name <;> rfl

/-- A relocation has the address of its other name, or none. -/
theorem patchField_rename (h : symbols.Renamed symbol others) (base start : Nat) (unit twin : Bytes)
    (code : Array UInt8) (relocation : Relocation) :
    (patchField others base start twin code (relocation.rename symbol)).toOption =
      (patchField symbols base start unit code relocation).toOption := by
  have haddress := addressOf?_rename h start relocation.referent
  rw [toOption_patchField, toOption_patchField]
  exact congrArg (Option.bind · _) haddress

/-- Code that was patched the same way. -/
def SamePatched (patched other : Array UInt8 × Diagnostics) : Prop :=
  other.1 = patched.1 ∧ other.2.hasErrors = patched.2.hasErrors

theorem patchUnit_rename (h : symbols.Renamed symbol others) (base start : Nat)
    (placed : PlacedUnit) (code : Array UInt8) {diagnostics twins : Diagnostics}
    (herrors : twins.hasErrors = diagnostics.hasErrors) (relocations : List Relocation) :
    SamePatched (patchUnit symbols base start placed code diagnostics relocations)
      (patchUnit others base start (placed.rename symbol) code twins
        (relocations.map (Relocation.rename symbol))) := by
  induction relocations generalizing code diagnostics twins with
  | nil => exact ⟨rfl, herrors⟩
  | cons relocation rest ih =>
      have hfield := patchField_rename h base start placed.unit.name
        (placed.rename symbol).unit.name code relocation
      simp only [List.map_cons, patchUnit]
      cases hleft : patchField symbols base start placed.unit.name code relocation with
      | ok patched =>
          cases hright : patchField others base start (placed.rename symbol).unit.name code
              (relocation.rename symbol) with
          | ok twin =>
              rw [hleft, hright] at hfield
              obtain rfl : twin = patched := Option.some.inj hfield
              exact ih twin herrors
          | error problem =>
              rw [hleft, hright] at hfield
              cases hfield
      | error problem =>
          cases hright : patchField others base start (placed.rename symbol).unit.name code
              (relocation.rename symbol) with
          | ok twin =>
              rw [hleft, hright] at hfield
              cases hfield
          | error other =>
              refine ih code ?_
              rw [Diagnostics.hasErrors_append, Diagnostics.hasErrors_append, herrors]
              rfl

theorem patchAll_rename (h : symbols.Renamed symbol others) (base : Nat) (code : Array UInt8)
    {diagnostics twins : Diagnostics} (herrors : twins.hasErrors = diagnostics.hasErrors)
    (starts : List (Nat × PlacedUnit)) :
    SamePatched (patchAll symbols base code diagnostics starts)
      (patchAll others base code twins
        (starts.map fun entry => (entry.1, entry.2.rename symbol))) := by
  induction starts generalizing code diagnostics twins with
  | nil => exact ⟨rfl, herrors⟩
  | cons entry rest ih =>
      obtain ⟨start, placed⟩ := entry
      obtain ⟨hcode, herrors⟩ := patchUnit_rename h base start placed code herrors
        placed.unit.relocations
      change SamePatched _ (patchAll others base
        (patchUnit others base start (placed.rename symbol) code
        twins (placed.unit.relocations.map (Relocation.rename symbol))).1 _ _)
      rw [hcode]
      exact ih _ herrors

/-- Units with other names are linked to the same code. -/
theorem ofUnits_rename (hinjective : Function.Injective symbol)
    (hentry : symbol entrySymbol = entrySymbol) (base : UInt32) (units : List CodeUnit) :
    Renamed symbol (ofUnits base units) (ofUnits base (units.map (CodeUnit.rename symbol))) := by
  have hempty : (Layout.empty base).Renamed symbol (Layout.empty base) :=
    ⟨rfl, rfl, rfl, ⟨NameMap.sorted_empty, NameMap.sorted_empty, fun _ => rfl⟩, rfl⟩
  have hunits : (units.map (CodeUnit.rename symbol)).map (fun unit => ⟨unit.encode, .origin⟩) =
      (units.map fun unit => (⟨unit.encode, .origin⟩ : PlacedUnit)).map
        (PlacedUnit.rename symbol) := by
    simp only [List.map_map, Function.comp_def, CodeUnit.encode_rename, PlacedUnit.rename]
  obtain ⟨hlayout, hfits⟩ := hempty.place hinjective
    (units.map fun unit => (⟨unit.encode, .origin⟩ : PlacedUnit))
  rw [ofUnits, ofUnits, hunits, link, link]
  generalize (Layout.empty base).place _ = placed at hlayout hfits ⊢
  generalize (Layout.empty base).place _ = twin at hlayout hfits ⊢
  obtain ⟨layout, fits⟩ := placed
  obtain ⟨other, fitsOther⟩ := twin
  obtain rfl : fitsOther = fits := hfits
  have hcode : other.code = layout.code := by rw [Layout.code, hlayout.blocks, Layout.code]
  cases fitsOther with
  | false =>
      refine ⟨hcode, rfl, rfl, hlayout.symbols, ?_⟩
      exact congrArg (!·) hlayout.errors
  | true =>
      obtain ⟨hpatched, herrors⟩ := patchAll_rename hlayout.symbols base.toNat layout.code.toArray
        hlayout.errors layout.starts
      have hsymbol := hlayout.symbols.find? entrySymbol
      rw [hentry] at hsymbol
      rw [← hlayout.starts] at hpatched herrors
      refine ⟨?_, rfl, ?_, hlayout.symbols, ?_⟩
      · change (patchAll other.symbols base.toNat other.code.toArray other.diagnostics
          other.starts).1.toList = _
        rw [hcode, hpatched]
        rfl
      · exact congrArg (·.getD base) hsymbol
      · change (!(patchAll other.symbols base.toNat other.code.toArray other.diagnostics
          other.starts).2.hasErrors) = _
        rw [hcode, herrors]
        rfl

/-- What holds of the names of all labels holds of the symbols that are laid out. -/
theorem Layout.place_symbols {P : Bytes → Prop} {layout : Layout}
    (hlayout : ∀ entry ∈ layout.symbols.entries, P entry.1) {units : List PlacedUnit}
    (h : ∀ placed ∈ units, ∀ label ∈ placed.unit.labels, P label.name) :
    ∀ entry ∈ (layout.place units).1.symbols.entries, P entry.1 := by
  induction units generalizing layout with
  | nil => exact hlayout
  | cons placed rest ih =>
      obtain ⟨hplaced, hrest⟩ := List.forall_mem_cons.mp h
      rw [place]
      split
      · exact hlayout
      · refine ih ?_ hrest
        exact List.foldlRecOn (motive := fun symbols : NameMap UInt32 =>
          ∀ entry ∈ symbols.entries, P entry.1) _ _ hlayout fun symbols hsymbols label hlabel =>
            NameMap.forall_mem_insertNew hsymbols (hplaced label hlabel) _

/-- The symbols of a program are the labels of its units. -/
theorem ofUnits_symbols {P : Bytes → Prop} (base : UInt32) {units : List CodeUnit}
    (h : ∀ unit ∈ units, ∀ mark ∈ unit.labels, P mark.name) :
    ∀ entry ∈ (ofUnits base units).symbols.entries, P entry.1 := by
  have hplaced : ∀ placed ∈ units.map fun unit => (⟨unit.encode, .origin⟩ : PlacedUnit),
      ∀ label ∈ placed.unit.labels, P label.name := by
    refine List.forall_mem_map.mpr fun unit hunit label hlabel => ?_
    obtain ⟨mark, hmark, rfl⟩ := List.mem_map.mp hlabel
    exact h unit hunit mark hmark
  have hsymbols := (Layout.empty base).place_symbols (List.forall_mem_nil _) hplaced
  rw [ofUnits, link]
  generalize (Layout.empty base).place _ = run at hsymbols ⊢
  obtain ⟨layout, fits⟩ := run
  cases fits <;> exact hsymbols

end LinkedProgram

end NovelAsm
