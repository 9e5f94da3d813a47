import NovelAsm.Proofs.Code.Spending
import NovelAsm.Proofs.Disassembly.Placeholders

/-!
Decoding has a normal form. Code may be longer than it has to be: a number in a wide form, a slot
of a bitmask that is marked and holds zero, garbage behind the number of a padded entry, a text
without its terminator. Whatever it was decoded from, an instruction can be printed and encoded
again, in no more bytes unless it holds a text, and decoding those bytes answers the same
instruction (`DecodedInstruction.readAt_normal`).
-/

namespace NovelAsm

namespace Piece

variable {offset : Nat} {span : Span}

theorem relocations_target {destination : CodeTarget} (h : destination.IsLinked) :
    (target offset destination).relocations = [] := by
  obtain ⟨address, rfl⟩ := h
  rfl

theorem relocations_targets {destinations : List CodeTarget}
    (h : ∀ destination ∈ destinations, destination.IsLinked) :
    (targets offset destinations).relocations = [] := by
  rw [targets, relocations_concat, List.flatMap_eq_nil_iff]
  refine List.forall_mem_map.mpr fun entry hentry => ?_
  exact relocations_target (h _ (List.fst_mem_of_mem_zipIdx hentry))

/-- A table with a case for each of its keys leads nowhere else. -/
theorem relocations_dense {destinations : List CodeTarget} (hcount : destinations.length ≤ 0xffff)
    (h : ∀ destination ∈ destinations, destination.IsLinked) :
    (targetTable offset span (((List.range destinations.length).map Int32.ofNat).zip
      destinations)).relocations = [] := by
  rw [targetTable_eq, entryCount_range hcount]
  refine List.flatMap_eq_nil_iff.mpr (List.forall_mem_map.mpr fun index hindex => ?_)
  rw [tableEntry, caseFor?_range hcount (List.mem_range.mp hindex)]
  exact relocations_target (h _ (List.getElem_mem _))

/-- What is linked waits for no address. -/
theorem relocations_linked {place : Slot} {value : OperandValue} (hholds : place.Holds value)
    (hlinked : value.IsLinked) : (operand offset ⟨value, span⟩).relocations = [] := by
  cases value with
  | target destinations => exact relocations_targets hlinked
  | targetTable keys destinations =>
      obtain ⟨hdestinations, rfl⟩ := hlinked
      exact relocations_dense hholds.length_le hdestinations
  | _ => exact relocations_plain span nofun nofun

theorem relocations_operands {values : List Operand}
    (h : ∀ value ∈ values, ∀ offset, (operand offset value).relocations = []) :
    (operands offset values).relocations = [] := by
  induction values generalizing offset with
  | nil => rfl
  | cons first rest ih =>
      rw [List.forall_mem_cons] at h
      rw [operands, relocations_append, h.1, ih h.2]
      rfl

end Piece

namespace Instruction.IsDecoded

variable {instruction : Instruction} {form : Form}

theorem relocations (h : instruction.IsDecoded form) (offset : Nat) :
    (Piece.instruction offset instruction).relocations = [] := by
  rw [Piece.instruction_of_row h.form, Piece.relocations_append, Piece.relocations_head]
  refine Piece.relocations_operands fun operand hoperand offset => ?_
  obtain ⟨hspan, hlinked, place, hholds⟩ := h.operand_eq hoperand
  rw [hspan]
  exact Piece.relocations_linked hholds hlinked

/-- The places of a decoded instruction are addresses. -/
theorem targets_linked (h : instruction.IsDecoded form) {operand : Operand}
    (hoperand : operand ∈ instruction.operands) :
    ∀ destination ∈ operand.value.targets, destination.IsLinked := by
  have hlinked := (h.operand_eq hoperand).2.1
  cases hvalue : operand.value with
  | target destinations =>
      rw [hvalue] at hlinked
      exact hlinked
  | targetTable keys destinations =>
      rw [hvalue] at hlinked
      exact hlinked.1
  | _ => exact List.forall_mem_nil _

theorem isSpelled (h : instruction.IsDecoded form) :
    ∀ operand ∈ instruction.operands, operand.value.IsSpelled := by
  intro operand hoperand destination hdestination name hname
  obtain ⟨address, rfl⟩ := h.targets_linked hoperand destination hdestination
  cases hname

/-- Raw bytes are no operand of what is decoded. -/
theorem ne_byteList (h : instruction.IsDecoded form) {operand : Operand}
    (hoperand : operand ∈ instruction.operands) (bytes : Bytes) :
    operand.value ≠ .byteList bytes := by
  intro hvalue
  obtain ⟨place, hplace, hholds⟩ := h.form.exists_slot hoperand
  obtain ⟨hrow, hopcode⟩ := Form.of_ofOpcode? h.form.row
  have hslots := ((Form.table_rows form hrow).resolve_left (hopcode ▸ h.opcode)).2
  rw [hvalue] at hholds
  have hbytes : place = .byteList := by cases place <;> first | rfl | exact hholds.elim
  exact Form.byteList_notMem_slotsFor instruction.subtype hslots (hbytes ▸ hplace)

/-- Outside of its texts, a decoded instruction is printed without placeholders. -/
theorem text_outside (h : instruction.IsDecoded form) :
    OutsideLiterals (¬ HasPlaceholder ·) instruction.text
      ((instruction.operands.map Operand.value).filterMap OperandValue.literal?) :=
  h.form.text_outside (fun _ hoperand => h.ne_byteList hoperand []) h.isSpelled

end Instruction.IsDecoded

/-- The code of a unit of one instruction is that of the instruction. -/
theorem CodeUnit.encode_piece {unit : CodeUnit} {instruction : Instruction}
    (h : unit.instructions = [instruction]) :
    unit.encode.piece = Piece.instruction 0 instruction := by
  simp only [EncodedUnit.piece, CodeUnit.encode, h, Piece.instructions, List.map_cons,
    List.map_nil, Piece.concat_singleton]

namespace DecodedInstruction

theorem read_of_reads {code : Bytes} {instruction : Instruction}
    (h : CodeReader.Reads CodeReader.instruction code instruction) (suffix : Bytes) :
    read (code ++ suffix) = .ok ⟨instruction, code.length⟩ := by
  have hread := h 0 suffix
  simp only [read, StateT.run, hread, Nat.zero_add]

/-- Whatever code an instruction was decoded from, if its texts have room for a terminator: it has
a row in the table, it is printed without placeholders, and alone in a unit it is encoded with
nothing to report and no address to wait for. Wherever those bytes stand, decoding them answers
the instruction again; and they are no more than it was decoded from, unless it holds a text. -/
theorem readAt_normal {code : Bytes} {offset : Nat} {decoded : DecodedInstruction}
    (h : readAt code offset = .ok decoded)
    (htexts : ∀ operand ∈ decoded.instruction.operands, ∀ text, operand.value = .string text →
      text.length ≤ 0xfffe) :
    (∃ form, decoded.instruction.OfForm form) ∧
      OutsideLiterals (¬ HasPlaceholder ·) decoded.instruction.text
        ((decoded.instruction.operands.map Operand.value).filterMap OperandValue.literal?) ∧
      ∀ unit : CodeUnit, unit.instructions = [decoded.instruction] →
        unit.encode.diagnostics = [] ∧ unit.encode.relocations = [] ∧
          (∀ front back, readAt (front ++ unit.encode.bytes ++ back) front.length =
            .ok ⟨decoded.instruction, unit.encode.bytes.length⟩) ∧
          ((∀ operand ∈ decoded.instruction.operands, ∀ text, operand.value ≠ .string text) →
            unit.encode.bytes.length ≤ decoded.size) := by
  have hread : read (code.drop offset) = .ok decoded := by
    rw [readAt] at h
    split at h
    · cases h
      assumption
    · cases h
  obtain ⟨form, hdecoded⟩ := exists_isDecoded hread
  have hencodable := hdecoded.isEncodable fun operand hoperand => by
    cases hvalue : operand.value with
    | string text => exact htexts operand hoperand text hvalue
    | _ => exact Nat.zero_le _
  refine ⟨⟨form, hdecoded.form⟩, hdecoded.text_outside, fun unit hunit => ?_⟩
  have hpiece := CodeUnit.encode_piece hunit
  have hbytes : unit.encode.bytes = (Piece.instruction 0 decoded.instruction).bytes :=
    congrArg Piece.bytes hpiece
  have hdiagnostics := hencodable.diagnostics 0
  refine ⟨(congrArg Piece.diagnostics hpiece).trans hdiagnostics,
    (congrArg Piece.relocations hpiece).trans (hdecoded.relocations 0), fun front back => ?_,
    fun hnone => ?_⟩
  · have hreads := CodeReader.reads_instruction 0 hdecoded.form hdecoded.linked hdecoded.counts
      hdecoded.opcode (by rw [hdiagnostics]; rfl)
    rw [readAt, List.append_assoc, List.drop_left, hbytes, read_of_reads hreads]
  · rw [hbytes]
    exact Nat.le_trans (hdecoded.size_le hnone) (leastSize_le_of_read hread hdecoded.form)

/-- Of the slots of a bitmask one is marked and holds zero, and two numbers stand in a form that
is wider than they need: sixteen bytes, where nine do. -/
theorem readAt_normal_bitmask :
    let code : Bytes := [0xff, 0xc1, 0xc1, 0x2c, 0x90, 0x00, 0x05, 0x85, 0x03, 0x07, 0x80, 0x00,
      0xd3, 0xa0, 0x00, 0x00, 0x09, 0x11]
    let short : Bytes := [0xc1, 0xc1, 0x2c, 0x05, 0x85, 0x03, 0x06, 0xd3, 0x09]
    let instruction : Instruction :=
      ⟨⟨0xc1⟩, 0, [⟨.number (.register (.value 300)), .origin⟩, ⟨.number (.constant 5), .origin⟩,
        ⟨.number (.constant 1283), .origin⟩,
        ⟨.bitmask [.constant 0, .register (.argument 3), .constant 9, .constant 0, .constant 0,
          .constant 0, .constant 0, .constant 0], .origin⟩], .origin⟩
    let unit : CodeUnit := (CodeUnit.empty .script (ascii "A")).append [instruction]
    readAt code 1 = .ok ⟨instruction, 16⟩ ∧
      (∀ operand ∈ instruction.operands, ∀ text, operand.value ≠ .string text) ∧
      (∃ form, instruction.OfForm form) ∧
      OutsideLiterals (¬ HasPlaceholder ·) instruction.text [] ∧
      unit.encode.bytes = short ∧ unit.encode.diagnostics = [] ∧ unit.encode.relocations = [] ∧
      ∀ front back, readAt (front ++ short ++ back) front.length = .ok ⟨instruction, 9⟩ := by
  intro code short instruction unit
  have hread : readAt code 1 = .ok ⟨instruction, 16⟩ := by decide +kernel
  have hnone : ∀ operand ∈ instruction.operands, ∀ text, operand.value ≠ .string text := by
    simp [instruction]
  obtain ⟨hform, htext, hencode⟩ := readAt_normal hread fun operand hoperand text hvalue =>
    absurd hvalue (hnone operand hoperand text)
  obtain ⟨hdiagnostics, hrelocations, hagain, -⟩ := hencode unit rfl
  have hbytes : unit.encode.bytes = short := by decide +kernel
  rw [hbytes] at hagain
  exact ⟨hread, hnone, hform, htext, hbytes, hdiagnostics, hrelocations, hagain⟩

end DecodedInstruction

end NovelAsm
