import NovelAsm.Code.Link
import NovelAsm.Proofs.Code.Codec

/-!
What linking writes. Each relocation is four bytes of one piece, so filling the fields of
a row of pieces is filling each piece by itself: `Piece.Fills` says what a piece becomes,
and pieces that stand one behind another are filled one behind another. A linked unit
is therefore the encoding of its linked instructions, and the code of a program is that
of its units (`LinkedProgram.link_eq`).
-/

namespace NovelAsm

theorem overwrite_append (before old new after : Bytes) (h : old.length = new.length) :
    overwrite (before ++ old ++ after).toArray before.length new =
      (before ++ new ++ after).toArray := by
  induction new generalizing before old with
  | nil =>
      obtain rfl := List.length_eq_zero_iff.mp h
      rfl
  | cons b rest ih =>
      cases old with
      | nil => cases h
      | cons a more =>
          have hset : (before ++ a :: more ++ after).toArray.setIfInBounds before.length b =
              (before ++ [b] ++ more ++ after).toArray := by
            simp
          have hnext := ih (before ++ [b]) more (by simpa using h)
          rw [overwrite, hset]
          simp only [List.length_append, List.length_singleton] at hnext
          rw [hnext]
          simp

namespace Piece

/-- The code with the addresses of some relocations written, which count from `start`. -/
def fill (address : Referent → UInt32) (start : Nat) (code : Array UInt8)
    (relocations : List Relocation) : Array UInt8 :=
  relocations.foldl
    (fun code relocation =>
      overwrite code (start + relocation.offset)
        (littleEndian 4 (address relocation.referent).toNat))
    code

/-- What a piece at an offset becomes when its addresses are written. -/
structure Fills (address : Referent → UInt32) (offset : Nat) (piece : Piece) (bytes : Bytes) :
    Prop where
  length_eq : bytes.length = piece.bytes.length
  fill_eq : ∀ start before after, before.length = start + offset →
    fill address start (before ++ piece.bytes ++ after).toArray piece.relocations =
      (before ++ bytes ++ after).toArray

variable {address : Referent → UInt32} {offset : Nat}

/-- A piece that waits for no address stays as it is. -/
theorem Fills.refl {piece : Piece} (h : piece.relocations = []) :
    Fills address offset piece piece.bytes where
  length_eq := rfl
  fill_eq _ _ _ _ := by
    rw [h]
    rfl

theorem Fills.append {a b : Piece} {first second : Bytes} (ha : Fills address offset a first)
    (hb : Fills address (offset + a.size) b second) :
    Fills address offset (a ++ b) (first ++ second) where
  length_eq := by simp [ha.length_eq, hb.length_eq]
  fill_eq start before after h := by
    have hfirst := ha.fill_eq start before (b.bytes ++ after) h
    have hsecond := hb.fill_eq start (before ++ first) after (by
      rw [List.length_append, ha.length_eq, h, size]
      omega)
    simp only [fill, bytes_append, relocations_append, List.foldl_append] at hfirst hsecond ⊢
    simp only [List.append_assoc] at hfirst hsecond ⊢
    rw [hfirst, hsecond]

theorem fills_field (referent : Referent) (span : Span) :
    Fills address offset (field offset referent span)
      (littleEndian 4 (address referent).toNat) where
  length_eq := by simp [field, length_littleEndian]
  fill_eq start before after h := by
    simp only [fill, field, List.foldl_cons, List.foldl_nil, ← h]
    exact overwrite_append before _ _ after (by simp [length_littleEndian])

theorem concat_append (a b : List Piece) : concat (a ++ b) = concat a ++ concat b := by
  simp only [concat, List.flatMap_append]
  rfl

theorem concat_singleton (piece : Piece) : concat [piece] = piece := by
  simp [concat]

theorem size_row {piece : Nat → Piece} {width : Nat} (hwidth : ∀ index, (piece index).size = width)
    (count : Nat) : (concat ((List.range count).map piece)).size = width * count := by
  induction count with
  | zero => rfl
  | succ count ih =>
      have hpiece := hwidth count
      simp only [List.range_succ, List.map_append, List.map_cons, List.map_nil, concat_append,
        concat_singleton]
      simp only [size, bytes_append, List.length_append] at ih hpiece ⊢
      rw [ih, hpiece, Nat.mul_succ]

/-- Pieces of one size in a row are filled one by one. -/
theorem fills_row {piece : Nat → Piece} {bytes : Nat → Bytes} {width : Nat}
    (hwidth : ∀ index, (piece index).size = width) (count : Nat)
    (h : ∀ index, index < count → Fills address (offset + width * index) (piece index)
      (bytes index)) :
    Fills address offset (concat ((List.range count).map piece))
      ((List.range count).flatMap bytes) := by
  induction count with
  | zero => exact Fills.refl rfl
  | succ count ih =>
      have hfills := ih fun index hindex => h index (by omega)
      have hlast := h count (by omega)
      rw [← size_row hwidth count] at hlast
      simp only [List.range_succ, List.map_append, List.map_cons, List.map_nil, concat_append,
        concat_singleton, List.flatMap_append, List.flatMap_cons, List.flatMap_nil,
        List.append_nil]
      exact hfills.append hlast

end Piece

namespace CodeTarget

/-- A target with the address of its place. -/
def linked (address : Referent → UInt32) (destination : CodeTarget) : CodeTarget :=
  match destination.place with
  | .symbol name => ⟨.address (address (.symbol name)), .origin⟩
  | .address value => ⟨.address value, .origin⟩

theorem linked_isLinked (address : Referent → UInt32) (destination : CodeTarget) :
    (destination.linked address).IsLinked := by
  simp only [linked, IsLinked]
  split <;> exact ⟨_, rfl⟩

end CodeTarget

namespace OperandValue

/-- The target of each key of a dense table. Keys without a case lead behind the instruction. -/
def linkedTargets (address : Referent → UInt32) (behind : UInt32)
    (cases : List (Int32 × CodeTarget)) : List CodeTarget :=
  (List.range (Piece.entryCount cases)).map fun key =>
    match Piece.caseFor? cases key with
    | some destination => destination.linked address
    | none => ⟨.address (address (.unitOffset behind)), .origin⟩

/-- An operand with the addresses of its places, given the offset behind its instruction. A case
table becomes dense. -/
def linked (address : Referent → UInt32) (behind : UInt32) : OperandValue → OperandValue
  | .target destinations => .target (destinations.map (·.linked address))
  | .targetTable keys destinations =>
      let targets := linkedTargets address behind (keys.zip destinations)
      .targetTable ((List.range targets.length).map Int32.ofNat) targets
  | value => value

end OperandValue

/-- An instruction with the addresses of its places, given the offset behind it, and with no
places of a text. -/
def Instruction.linked (address : Referent → UInt32) (behind : UInt32)
    (instruction : Instruction) : Instruction :=
  ⟨instruction.opcode, instruction.subtype,
    instruction.operands.map fun operand => ⟨operand.value.linked address behind, .origin⟩,
    .origin⟩

namespace Piece

variable {address : Referent → UInt32} {offset : Nat}

theorem fills_target (destination : CodeTarget) (place : Nat) :
    Fills address offset (target offset destination)
      (target place (destination.linked address)).bytes := by
  simp only [target, CodeTarget.linked]
  cases destination.place with
  | symbol name => exact fills_field (.symbol name) destination.span
  | address value => exact Fills.refl rfl

theorem entryCount_le {cases : List (Int32 × CodeTarget)} {limit count : Nat}
    (h : ∀ entry ∈ cases, (entry.1.toInt + 1).toNat ≤ limit) (hcount : count ≤ limit) :
    cases.foldl (fun count entry => max count (entry.1.toInt + 1).toNat) count ≤ limit := by
  induction cases generalizing count with
  | nil => exact hcount
  | cons entry rest ih =>
      exact ih (fun other hother => h other (List.mem_cons_of_mem _ hother))
        (Nat.max_le.mpr ⟨hcount, h entry (List.mem_cons_self ..)⟩)

theorem size_target (destination : CodeTarget) : (target offset destination).size = 4 := by
  simp only [target]
  split <;> simp [field, size, length_littleEndian]

theorem Fills.congr {a b : Piece} {bytes : Bytes} (h : Fills address offset a bytes)
    (hbytes : b.bytes = a.bytes) (hrelocations : b.relocations = a.relocations) :
    Fills address offset b bytes where
  length_eq := hbytes ▸ h.length_eq
  fill_eq := by
    rw [hbytes, hrelocations]
    exact h.fill_eq

theorem fills_targetTable {span : Span} {cases : List (Int32 × CodeTarget)}
    (hcount : entryCount cases ≤ 0xffff) {behind : UInt32}
    (hbehind : behind = (offset + (targetTable offset span cases).size).toUInt32) :
    let targets := OperandValue.linkedTargets address behind cases
    Fills address offset (targetTable offset span cases)
      (targetTable offset .origin
        (((List.range targets.length).map Int32.ofNat).zip targets)).bytes := by
  intro targets
  have hlength : targets.length = entryCount cases := by
    simp [targets, OperandValue.linkedTargets]
  rw [CodeReader.bytes_dense offset (by omega), hlength]
  let entry (key : Nat) : Piece :=
    match caseFor? cases key with
    | some destination => target (offset + 2 + 4 * key) destination
    | none =>
        field (offset + 2 + 4 * key)
          (.unitOffset (offset + 2 + 4 * entryCount cases).toUInt32) span
  have hsize : ∀ key, (entry key).size = 4 := by
    intro key
    simp only [entry]
    split
    · exact size_target _
    · simp [field, size, length_littleEndian]
  have hcountSize : (u16 (entryCount cases)).size = 2 := by
    simp [u16, size, length_littleEndian]
  have htable : targetTable offset span cases =
      { u16 (entryCount cases) ++ concat ((List.range (entryCount cases)).map entry) with
        diagnostics := repeatedCases [] cases } := rfl
  have hwhole : (targetTable offset span cases).size = 2 + 4 * entryCount cases := by
    rw [htable, ← hcountSize, ← size_row hsize]
    simp [size]
  have hentries : Fills address (offset + (u16 (entryCount cases)).size)
      (concat ((List.range (entryCount cases)).map entry))
      (targets.flatMap fun destination => (target 0 destination).bytes) := by
    simp only [targets, OperandValue.linkedTargets, List.flatMap_map]
    rw [hcountSize]
    apply fills_row hsize
    intro key _
    simp only [entry]
    cases caseFor? cases key with
    | some destination => exact fills_target destination 0
    | none =>
        have hplace : (offset + 2 + 4 * entryCount cases).toUInt32 = behind := by
          rw [hbehind, hwhole, Nat.add_assoc]
        rw [hplace]
        exact fills_field _ span
  exact ((Fills.refl rfl).append hentries).congr (by rw [htable]) (by rw [htable])

/-- A table jump leads behind its instruction for keys that it leaves out, so it has to be the
last operand; other operands do not ask what is behind. -/
def TablesLast : List Operand → Prop
  | [] | [_] => True
  | first :: rest => (∀ keys destinations, first.value ≠ .targetTable keys destinations) ∧
      TablesLast rest

theorem bytes_concat (pieces : List Piece) : (concat pieces).bytes = pieces.flatMap bytes := rfl

theorem relocations_concat (pieces : List Piece) :
    (concat pieces).relocations = pieces.flatMap relocations := rfl

theorem bytes_number (span : Span) (value : Number) :
    (number span value).bytes = value.encode?.getD [0] := by
  simp only [number]
  split <;> simp_all

theorem relocations_number (span : Span) (value : Number) :
    (number span value).relocations = [] := by
  simp only [number]
  split <;> rfl

theorem bytes_string (span : Span) (text : Bytes) :
    (string span text).bytes = (string .origin text).bytes := by
  simp only [string]
  split <;> rfl

theorem relocations_string (span : Span) (text : Bytes) : (string span text).relocations = [] := by
  simp only [string]
  split <;> rfl

theorem bytes_term (span : Span) (value : Term) :
    (term span value).bytes = (term .origin value).bytes := by
  cases value with
  | push number => simp only [term, bytes_append, bytes_number]
  | apply operator => rfl

theorem relocations_term (span : Span) (value : Term) : (term span value).relocations = [] := by
  cases value with
  | push number =>
      simp only [term, relocations_append, relocations_number]
      rfl
  | apply operator => rfl

theorem size_number (span : Span) (value : Number) :
    (number span value).size = (number .origin value).size := by
  simp only [size, bytes_number]

theorem relocations_head (form : Form) (instruction : Instruction) :
    (head form instruction).relocations = [] := by
  simp only [head]
  split <;> split <;> rfl

/-- An operand without a place in the code waits for no address. -/
theorem relocations_plain {value : OperandValue} (span : Span)
    (htarget : ∀ destinations, value ≠ .target destinations)
    (htable : ∀ keys destinations, value ≠ .targetTable keys destinations) :
    (operand offset ⟨value, span⟩).relocations = [] := by
  cases value <;> simp only [operand] <;> try rfl
  case number => exact relocations_number _ _
  case string => exact relocations_string _ _
  case numberList =>
      simp [relocations_concat, List.flatMap_map, relocations_number, u8, ofBytes]
  case bitmask =>
      simp [bitmask, relocations_concat, List.flatMap_map, relocations_number, u8, ofBytes]
  case target destinations => exact absurd rfl (htarget destinations)
  case targetTable keys destinations => exact absurd rfl (htable keys destinations)
  case paddedTable =>
      simp [relocations_concat, List.flatMap_map, paddedNumber, relocations_number, u16, ofBytes]
  case expression =>
      simp [relocations_concat, List.flatMap_map, relocations_term, u8, ofBytes]

/-- An operand without a place in the code is written without its span. -/
theorem fills_plain {value : OperandValue} (span : Span)
    (htarget : ∀ destinations, value ≠ .target destinations)
    (htable : ∀ keys destinations, value ≠ .targetTable keys destinations) :
    Fills address offset (operand offset ⟨value, span⟩)
      (operand offset ⟨value, .origin⟩).bytes := by
  have hbytes : (operand offset ⟨value, span⟩).bytes = (operand offset ⟨value, .origin⟩).bytes := by
    cases value <;> simp only [operand] <;> try rfl
    case number => rw [bytes_number, bytes_number]
    case string => exact bytes_string _ _
    case numberList => simp only [bytes_append, bytes_concat, List.flatMap_map, bytes_number]
    case bitmask => simp only [bitmask, bytes_append, bytes_concat, List.flatMap_map, bytes_number]
    case targetTable keys destinations => exact absurd rfl (htable keys destinations)
    case paddedTable =>
        simp only [bytes_append, bytes_concat, List.flatMap_map, paddedNumber, bytes_number,
          size_number span]
    case expression =>
        simp only [bytes_append, bytes_concat, List.flatMap_map, bytes_term span]
  rw [← hbytes]
  exact Fills.refl (relocations_plain span htarget htable)

theorem fills_operand {place : Slot} {operand : Operand} (hholds : place.Holds operand.value)
    {behind : UInt32}
    (hbehind : ∀ keys destinations, operand.value = .targetTable keys destinations →
      behind = (offset + (Piece.operand offset operand).size).toUInt32) :
    Fills address offset (Piece.operand offset operand)
      (Piece.operand offset ⟨operand.value.linked address behind, .origin⟩).bytes := by
  obtain ⟨value, span⟩ := operand
  cases value
  case target destinations =>
      cases place <;> try exact hholds.elim
      obtain ⟨destination, rfl⟩ := List.length_eq_one_iff.mp hholds
      simp only [Piece.operand, OperandValue.linked, targets, List.map_cons, List.map_nil,
        List.zipIdx_cons, List.zipIdx_nil, concat_singleton]
      exact fills_target destination _
  case targetTable keys destinations =>
      cases place <;> try exact hholds.elim
      have hcount : entryCount (keys.zip destinations) ≤ 0xffff := by
        apply entryCount_le
        · intro entry hentry
          have hkey := hholds.2 entry.1 (List.of_mem_zip hentry).1
          omega
        · omega
      exact fills_targetTable hcount (hbehind keys destinations rfl)
  all_goals exact fills_plain span (by rintro _ ⟨⟩) (by rintro _ _ ⟨⟩)

/-- The operands of an instruction, behind which an offset is given. -/
theorem fills_operands {slots : List Slot} {operands : List Operand}
    (hholds : List.Forall₂ (fun place operand => place.Holds operand.value) slots operands)
    (hlast : TablesLast operands) {behind : UInt32}
    (hbehind : behind = (offset + (Piece.operands offset operands).size).toUInt32) :
    Fills address offset (Piece.operands offset operands)
      (Piece.operands offset
        (operands.map fun operand => ⟨operand.value.linked address behind, .origin⟩)).bytes := by
  induction hholds generalizing offset with
  | nil => exact Fills.refl rfl
  | @cons place first slots rest hfirst _ ih =>
      have hsize : (Piece.operands offset (first :: rest)).size =
          (Piece.operand offset first).size +
            (Piece.operands (offset + (Piece.operand offset first).size) rest).size := by
        simp [Piece.operands, size]
      have hfills : Fills address offset (Piece.operand offset first)
          (Piece.operand offset ⟨first.value.linked address behind, .origin⟩).bytes := by
        apply fills_operand hfirst
        intro keys destinations htable
        cases rest with
        | nil =>
            rw [hbehind, hsize]
            simp [Piece.operands, empty, size]
        | cons second rest => exact absurd htable (hlast.1 keys destinations)
      have hrest : TablesLast rest := by
        cases rest with
        | nil => trivial
        | cons second rest => exact hlast.2
      have hmore := @ih (offset + (Piece.operand offset first).size) hrest
        (by rw [hbehind, hsize, Nat.add_assoc])
      have hlength : (Piece.operand offset ⟨first.value.linked address behind, .origin⟩).size =
          (Piece.operand offset first).size := hfills.length_eq
      simp only [Piece.operands, List.map_cons, hlength, bytes_append]
      exact hfills.append hmore

/-- The slots of a row with its case table at the end, if it has one. -/
def slotsTableLast : List Slot → Bool
  | [] | [_] => true
  | first :: rest => first != .targetTable && slotsTableLast rest

theorem tablesLast_of_slots {slots : List Slot} {operands : List Operand}
    (hholds : List.Forall₂ (fun place operand => place.Holds operand.value) slots operands)
    (h : slotsTableLast slots = true) : TablesLast operands := by
  induction hholds with
  | nil => trivial
  | @cons place first slots rest hfirst hrest ih =>
      cases hrest with
      | nil => trivial
      | @cons next second slots rest _ _ =>
          simp only [slotsTableLast, Bool.and_eq_true, bne_iff_ne] at h ih
          refine ⟨?_, ih (by simpa [slotsTableLast] using h.2)⟩
          intro keys destinations htable
          rw [htable] at hfirst
          cases place <;> first | exact hfirst.elim | exact h.1 rfl

theorem slotsTableLast_of_row : ∀ form ∈ Form.table,
    slotsTableLast form.slots = true ∧ slotsTableLast (form.slots.eraseIdx 1) = true := by
  decide +kernel

theorem tablesLast_of_form {instruction : Instruction} {form : Form}
    (h : instruction.OfForm form) : TablesLast instruction.operands := by
  obtain ⟨hslots, herased⟩ := slotsTableLast_of_row form (Form.of_ofOpcode? h.row).1
  apply tablesLast_of_slots h.operands
  simp only [Form.slotsFor]
  split
  · exact herased
  · exact hslots

/-- An instruction is filled to the encoding of its linked form. -/
theorem fills_instruction {instruction : Instruction} {form : Form} (h : instruction.OfForm form)
    {behind : UInt32}
    (hbehind : behind = (offset + (Piece.instruction offset instruction).size).toUInt32) :
    Fills address offset (Piece.instruction offset instruction)
      (Piece.instruction offset (instruction.linked address behind)).bytes := by
  have hrow : Form.ofInstruction? (instruction.linked address behind) = some form := h.row
  simp only [Piece.instruction, h.row, hrow] at hbehind ⊢
  by_cases hselect : (instruction.opcode == .select) = true
  · have hselect' : ((instruction.linked address behind).opcode == .select) = true := hselect
    rw [if_pos hselect, if_pos hselect']
    exact Fills.refl rfl
  · have hselect' : ¬ ((instruction.linked address behind).opcode == .select) = true := hselect
    rw [if_neg hselect] at hbehind ⊢
    rw [if_neg hselect']
    have hhead : Piece.head form (instruction.linked address behind) =
        Piece.head form instruction := rfl
    rw [hhead, bytes_append]
    apply (Fills.refl (relocations_head form instruction)).append
    apply fills_operands h.operands (tablesLast_of_form h)
    rw [hbehind]
    simp [size, Nat.add_assoc]

/-- The code of a unit when its addresses are written: the encodings of its linked instructions
one behind another. -/
def linkedCode (address : Referent → UInt32) (offset : Nat) : List Instruction → Bytes
  | [] => []
  | first :: rest =>
      let behind := offset + (Piece.instruction offset first).size
      (Piece.instruction offset (first.linked address behind.toUInt32)).bytes
        ++ linkedCode address behind rest

theorem fills_instructions {instructions : List Instruction}
    (h : ∀ instruction ∈ instructions, ∃ form, instruction.OfForm form) :
    Fills address offset (concat ((Piece.instructions offset instructions).map Prod.snd))
      (linkedCode address offset instructions) := by
  induction instructions generalizing offset with
  | nil => exact Fills.refl rfl
  | cons first rest ih =>
      obtain ⟨form, hform⟩ := h first (List.mem_cons_self ..)
      have hrest := @ih (offset + (Piece.instruction offset first).size)
        fun other hother => h other (List.mem_cons_of_mem _ hother)
      have hconcat : concat ((Piece.instructions offset (first :: rest)).map Prod.snd) =
          Piece.instruction offset first ++
            concat ((Piece.instructions (offset + (Piece.instruction offset first).size)
              rest).map Prod.snd) := by
        simp only [Piece.instructions, List.map_cons, concat, List.flatMap_cons]
        rfl
      rw [hconcat]
      exact (fills_instruction hform rfl).append hrest

end Piece

/-- A unit without its labels, which is one piece at the beginning of the unit. -/
def EncodedUnit.piece (unit : EncodedUnit) : Piece :=
  ⟨unit.bytes, unit.relocations, unit.diagnostics⟩

namespace LinkedProgram

/-- The address that stands for a referent in a unit with the given start. -/
def addressIn (symbols : NameMap UInt32) (start : Nat) : Referent → UInt32
  | .symbol name => (symbols.find? name).getD 0
  | .unitOffset offset => (start + offset.toNat).toUInt32

theorem addressIn_eq {symbols : NameMap UInt32} {start : Nat} {referent : Referent}
    {address : UInt32} (h : addressOf? symbols start referent = .ok address) :
    addressIn symbols start referent = address := by
  cases referent with
  | symbol name =>
      simp only [addressOf?] at h
      cases hfound : symbols.find? name with
      | none =>
          rw [hfound] at h
          cases h
      | some found =>
          rw [hfound] at h
          cases h
          simp [addressIn, hfound]
  | unitOffset offset =>
      cases h
      rfl

theorem patchField_eq {symbols : NameMap UInt32} {base start : Nat} {unit : Bytes}
    {code patched : Array UInt8} {relocation : Relocation}
    (h : patchField symbols base start unit code relocation = .ok patched) :
    patched = Piece.fill (addressIn symbols start) (start - base) code [relocation] := by
  simp only [patchField, bind, Except.bind] at h
  cases haddress : addressOf? symbols start relocation.referent with
  | error problem =>
      rw [haddress] at h
      cases h
  | ok address =>
      simp only [haddress, patch?] at h
      split at h
      · rename_i code' hcode
        split at hcode
        · obtain rfl := Option.some.inj hcode
          obtain rfl := Except.ok.inj h
          simp [Piece.fill, addressIn_eq haddress]
        · cases hcode
      · cases h

theorem isError_diagnose (problem : LinkProblem) (span : Span) :
    (problem.diagnose span).isError = true := rfl

theorem patchUnit_reports (symbols : NameMap UInt32) (base start : Nat) (placed : PlacedUnit)
    (code : Array UInt8) (diagnostics : Diagnostics) (relocations : List Relocation) :
    ∃ more, (patchUnit symbols base start placed code diagnostics relocations).2 =
      diagnostics ++ more := by
  induction relocations generalizing code diagnostics with
  | nil => exact ⟨[], (List.append_nil _).symm⟩
  | cons relocation rest ih =>
      simp only [patchUnit]
      split
      · exact ih _ diagnostics
      · rename_i problem _
        obtain ⟨more, hmore⟩ := ih code
          (diagnostics ++ [problem.diagnose (relocation.span.rebase placed.origin)])
        exact ⟨_ :: more, by rw [hmore, List.append_assoc]; rfl⟩

/-- A relocation that cannot be written is reported, so without errors all are written. -/
theorem patchUnit_eq {symbols : NameMap UInt32} {base start : Nat} {placed : PlacedUnit}
    {code : Array UInt8} {diagnostics : Diagnostics} {relocations : List Relocation}
    (h : (patchUnit symbols base start placed code diagnostics relocations).2.hasErrors = false) :
    (patchUnit symbols base start placed code diagnostics relocations).1 =
      Piece.fill (addressIn symbols start) (start - base) code relocations := by
  induction relocations generalizing code diagnostics with
  | nil => rfl
  | cons relocation rest ih =>
      simp only [patchUnit] at h ⊢
      split at h
      · rename_i patched hpatched
        rw [ih h, patchField_eq hpatched]
        simp only [Piece.fill, List.foldl_cons, List.foldl_nil]
      · rename_i problem _
        obtain ⟨more, hmore⟩ := patchUnit_reports symbols base start placed code
          (diagnostics ++ [problem.diagnose (relocation.span.rebase placed.origin)]) rest
        rw [hmore] at h
        simp [Diagnostics.hasErrors, isError_diagnose] at h

theorem patchAll_reports (symbols : NameMap UInt32) (base : Nat) (code : Array UInt8)
    (diagnostics : Diagnostics) (units : List (Nat × PlacedUnit)) :
    ∃ more, (patchAll symbols base code diagnostics units).2 = diagnostics ++ more := by
  induction units generalizing code diagnostics with
  | nil => exact ⟨[], (List.append_nil _).symm⟩
  | cons first rest ih =>
      obtain ⟨start, placed⟩ := first
      obtain ⟨reported, hreported⟩ := patchUnit_reports symbols base start placed code diagnostics
        placed.unit.relocations
      obtain ⟨more, hmore⟩ := ih
        (patchUnit symbols base start placed code diagnostics placed.unit.relocations).1
        (patchUnit symbols base start placed code diagnostics placed.unit.relocations).2
      refine ⟨reported ++ more, ?_⟩
      rw [patchAll, hmore, hreported, List.append_assoc]

section Units

variable {α : Type} (place : α → PlacedUnit)

/-- Where units start that are laid out from an address on. -/
def starts (cursor : Nat) : List α → List (Nat × PlacedUnit)
  | [] => []
  | first :: rest =>
      (cursor, place first) :: starts (cursor + (place first).unit.bytes.length) rest

/-- The codes of units, each at its start. -/
def codesFrom (linked : Nat → α → Bytes) (cursor : Nat) : List α → Bytes
  | [] => []
  | first :: rest =>
      linked cursor first
        ++ codesFrom linked (cursor + (place first).unit.bytes.length) rest

/-- Without errors, patching all units writes each of them at its place. -/
theorem patchAll_eq {symbols : NameMap UInt32} {base : Nat} {linked : Nat → α → Bytes}
    {units : List α}
    (hfills : ∀ start, ∀ unit ∈ units, Piece.Fills (addressIn symbols start) 0
      (place unit).unit.piece (linked start unit))
    {cursor : Nat} {done : Bytes} (hcursor : cursor = base + done.length)
    {diagnostics : Diagnostics}
    (h : (patchAll symbols base (done ++ units.flatMap fun unit => (place unit).unit.bytes).toArray
      diagnostics (starts place cursor units)).2.hasErrors = false) :
    (patchAll symbols base (done ++ units.flatMap fun unit => (place unit).unit.bytes).toArray
      diagnostics (starts place cursor units)).1 =
        (done ++ codesFrom place linked cursor units).toArray := by
  induction units generalizing cursor done diagnostics with
  | nil => simp [starts, patchAll, codesFrom]
  | cons first rest ih =>
      have hfirst := hfills cursor first (List.mem_cons_self ..)
      simp only [starts, patchAll] at h ⊢
      obtain ⟨more, hmore⟩ := patchAll_reports symbols base
        (patchUnit symbols base cursor (place first)
          (done ++ (first :: rest).flatMap fun unit => (place unit).unit.bytes).toArray
          diagnostics (place first).unit.relocations).1
        (patchUnit symbols base cursor (place first)
          (done ++ (first :: rest).flatMap fun unit => (place unit).unit.bytes).toArray
          diagnostics (place first).unit.relocations).2
        (starts place (cursor + (place first).unit.bytes.length) rest)
      have hunit : (patchUnit symbols base cursor (place first)
          (done ++ (first :: rest).flatMap fun unit => (place unit).unit.bytes).toArray
          diagnostics (place first).unit.relocations).2.hasErrors = false := by
        rw [hmore, Diagnostics.hasErrors_append, Bool.or_eq_false_iff] at h
        exact h.1
      have hcode := patchUnit_eq hunit
      have hfill := hfirst.fill_eq (cursor - base) done
        (rest.flatMap fun unit => (place unit).unit.bytes) (by omega)
      have hblock : done ++ (first :: rest).flatMap (fun unit => (place unit).unit.bytes) =
          done ++ (place first).unit.piece.bytes ++
            rest.flatMap fun unit => (place unit).unit.bytes := by
        simp [EncodedUnit.piece]
      have hpatched : (patchUnit symbols base cursor (place first)
          (done ++ (first :: rest).flatMap fun unit => (place unit).unit.bytes).toArray
          diagnostics (place first).unit.relocations).1 =
          (done ++ linked cursor first ++
            rest.flatMap fun unit => (place unit).unit.bytes).toArray := by
        rw [hcode, hblock]
        exact hfill
      rw [hpatched] at h ⊢
      have hlength : (linked cursor first).length = (place first).unit.bytes.length :=
        hfirst.length_eq
      rw [ih (fun start unit hunit => hfills start unit (List.mem_cons_of_mem _ hunit))
        (by rw [List.length_append, hlength, hcursor, Nat.add_assoc]) h]
      simp [codesFrom]

/-- The symbols that units define, the first definition of a name first. -/
def definedSymbols (cursor : Nat) (symbols : NameMap UInt32) : List α → NameMap UInt32
  | [] => symbols
  | first :: rest =>
      definedSymbols (cursor + (place first).unit.bytes.length)
        (Layout.defineLabels cursor (place first).unit.labels symbols) rest

/-- Units that are laid out without an error stand one behind another below the limit. -/
theorem place_eq {units : List α} {layout : Layout}
    (hlimit : layout.cursor ≤ addressLimit)
    (h : (layout.place (units.map place)).2 = true) :
    (layout.place (units.map place)).1 =
      { blocks := layout.blocks ++ units.map fun unit => (place unit).unit.bytes
        starts := layout.starts ++ starts place layout.cursor units
        cursor := layout.cursor + (units.map fun unit => (place unit).unit.bytes.length).sum
        symbols := definedSymbols place layout.cursor layout.symbols units
        diagnostics := layout.diagnostics ++
          units.flatMap fun unit => (place unit).unit.diagnostics.rebase (place unit).origin } ∧
      layout.cursor + (units.map fun unit => (place unit).unit.bytes.length).sum ≤
        addressLimit := by
  induction units generalizing layout with
  | nil => simp [Layout.place, starts, definedSymbols, hlimit]
  | cons first rest ih =>
      simp only [List.map_cons, Layout.place] at h ⊢
      split at h
      · cases h
      · rename_i hfits
        rw [if_neg hfits]
        obtain ⟨hlayout, hend⟩ := ih (by simpa [Layout.add] using hfits) h
        rw [hlayout]
        simp only [Layout.add, starts, definedSymbols, List.sum_cons, List.flatMap_cons] at hend ⊢
        refine ⟨?_, by omega⟩
        simp [Nat.add_assoc]

/-- A unit that does not fit is reported. -/
theorem place_refused {units : List PlacedUnit} {layout : Layout}
    (h : (layout.place units).2 = false) : ∃ name span,
      (LinkProblem.addressSpace name).diagnose span ∈ (layout.place units).1.diagnostics := by
  induction units generalizing layout with
  | nil => cases h
  | cons first rest ih =>
      simp only [Layout.place] at h ⊢
      split at h
      · rename_i hlong
        rw [if_pos hlong]
        exact ⟨_, _, List.mem_append_right _ (List.mem_singleton_self _)⟩
      · rename_i hfits
        rw [if_neg hfits]
        exact ih h

/-- What linking without an error gives: the code is that of the units at their places, each
with the addresses of the symbols, defined or outside, and no unit had an error. -/
theorem link_eq {base : UInt32} {externals : List (Bytes × UInt32)} {units : List α}
    (hsucceeded : (link base externals (units.map place)).succeeded = true)
    {symbols : NameMap UInt32}
    (hsymbols : symbols = externals.foldl (fun symbols entry => symbols.insertNew entry.1 entry.2)
      (definedSymbols place base.toNat .empty units)) {linked : Nat → α → Bytes}
    (hfills : ∀ start, ∀ unit ∈ units, Piece.Fills (addressIn symbols start) 0
      (place unit).unit.piece (linked start unit)) :
    let program := link base externals (units.map place)
    program.code = codesFrom place linked base.toNat units ∧ program.symbols = symbols ∧
      program.entry = (program.symbols.find? entrySymbol).getD base ∧
      base.toNat + (units.map fun unit => (place unit).unit.bytes.length).sum ≤ addressLimit ∧
      (∃ more, program.diagnostics =
        (units.flatMap fun unit => (place unit).unit.diagnostics.rebase (place unit).origin) ++
          more) ∧
      ∀ unit ∈ units, (place unit).unit.diagnostics.hasErrors = false := by
  intro program
  have hbase : (Layout.empty base).cursor ≤ addressLimit := by
    have hlt := base.toNat_lt
    simp only [Layout.empty, addressLimit]
    omega
  cases hplace : (Layout.empty base).place (units.map place) with
  | mk layout fits =>
      cases fits with
      | false =>
          obtain ⟨name, span, hreported⟩ :=
            @place_refused (units.map place) (.empty base) (by rw [hplace])
          simp only [link, hplace, succeeded, Bool.not_eq_true', Diagnostics.hasErrors,
            List.any_eq_false] at hsucceeded
          rw [hplace] at hreported
          exact absurd (isError_diagnose _ _) (hsucceeded _ hreported)
      | true =>
          obtain ⟨hlayout, hend⟩ := place_eq place hbase (by rw [hplace])
          rw [hplace] at hlayout
          simp only [Layout.empty, List.nil_append] at hlayout hend
          subst hlayout
          have hblocks : (units.map fun unit => (place unit).unit.bytes).flatten =
              [] ++ units.flatMap fun unit => (place unit).unit.bytes := by
            rw [List.nil_append, List.flatMap_def]
          let patched := patchAll symbols base.toNat
            ([] ++ units.flatMap fun unit => (place unit).unit.bytes).toArray
            (units.flatMap fun unit => (place unit).unit.diagnostics.rebase (place unit).origin)
            (starts place base.toNat units)
          have hlink : program = ⟨patched.1.toList, base, (symbols.find? entrySymbol).getD base,
              symbols, patched.2⟩ := by
            simp only [program, link, hplace, ← hsymbols, Layout.code, hblocks]
            rfl
          have hdiagnostics : patched.2.hasErrors = false := by
            have hprogram : program.succeeded = true := hsucceeded
            rw [hlink, succeeded, Bool.not_eq_true'] at hprogram
            exact hprogram
          have hcode := patchAll_eq place hfills
            (show base.toNat = base.toNat + ([] : Bytes).length by simp) hdiagnostics
          obtain ⟨more, hmore⟩ := patchAll_reports symbols base.toNat
            ([] ++ units.flatMap fun unit => (place unit).unit.bytes).toArray
            (units.flatMap fun unit => (place unit).unit.diagnostics.rebase (place unit).origin)
            (starts place base.toNat units)
          simp only [patched, hmore, Diagnostics.hasErrors_append, Bool.or_eq_false_iff]
            at hdiagnostics
          rw [hlink]
          refine ⟨?_, rfl, rfl, hend, ⟨more, hmore⟩, ?_⟩
          · exact congrArg Array.toList hcode
          · intro unit hunit
            have hunits := hdiagnostics.1
            simp only [Diagnostics.hasErrors, List.any_flatMap, List.any_eq_false] at hunits
            simpa [Diagnostics.rebase, Diagnostics.hasErrors, Diagnostic.rebase,
              Diagnostic.isError] using hunits unit hunit

end Units

end LinkedProgram

end NovelAsm
