import NovelAsm.Proofs.Code.CaseWarnings

/-!
What a jump table does in a linked program. The encoder makes a dense table of a list of cases,
with four bytes for each key up to the largest one, and leaves most of them open; the linker
writes addresses over what is open. `Piece.HasPart` follows one entry from the table to the
code of the program: nothing else is written where it stands. So the entry of a key leads to the
first case of the key, or behind the instruction if there is none (`LinkedProgram.Dispatches`).
-/

namespace NovelAsm

namespace Piece

/-- A piece at an offset has another one as a part, which begins at a place. No field of the rest
reaches into the part. -/
structure HasPart (offset : Nat) (piece : Piece) (place : Nat) (part : Piece) : Prop where
  bytes : ∃ front back, piece.bytes = front ++ part.bytes ++ back ∧ place = offset + front.length
  relocations : ∃ before after, piece.relocations = before ++ part.relocations ++ after ∧
    (∀ relocation ∈ before, relocation.offset + 4 ≤ place) ∧
    ∀ relocation ∈ after, place + part.size ≤ relocation.offset

variable {offset place : Nat} {piece part : Piece}

theorem HasPart.refl (offset : Nat) (piece : Piece) : HasPart offset piece offset piece where
  bytes := ⟨[], [], by simp, rfl⟩
  relocations := ⟨[], [], by simp, List.forall_mem_nil _, List.forall_mem_nil _⟩

/-- A part begins and ends inside of its piece. -/
theorem HasPart.within (h : HasPart offset piece place part) :
    offset ≤ place ∧ place + part.size ≤ offset + piece.size := by
  obtain ⟨front, back, hbytes, hplace⟩ := h.bytes
  have hsize : piece.size = front.length + part.size + back.length := by
    rw [size, hbytes, List.length_append, List.length_append, size]
  omega

theorem HasPart.append_right (h : HasPart offset piece place part) {behind : Piece}
    (hbehind : Apart (offset + piece.size) behind) :
    HasPart offset (piece ++ behind) place part := by
  have hwithin := h.within
  obtain ⟨front, back, hbytes, hplace⟩ := h.bytes
  obtain ⟨before, after, hrelocations, hbefore, hafter⟩ := h.relocations
  refine ⟨⟨front, back ++ behind.bytes, ?_, hplace⟩,
    ⟨before, after ++ behind.relocations, ?_, hbefore, ?_⟩⟩
  · rw [bytes_append, hbytes, List.append_assoc]
  · rw [relocations_append, hrelocations, List.append_assoc]
  · intro relocation hmem
    rcases List.mem_append.mp hmem with hmem | hmem
    · exact hafter relocation hmem
    · have hinside := (hbehind.inside relocation hmem).1
      omega

theorem HasPart.append_left {front : Piece} (hfront : Apart offset front)
    (h : HasPart (offset + front.size) piece place part) :
    HasPart offset (front ++ piece) place part := by
  have hwithin := h.within
  obtain ⟨before, after, hrelocations, hbefore, hafter⟩ := h.relocations
  obtain ⟨bytes, back, hbytes, hplace⟩ := h.bytes
  refine ⟨⟨front.bytes ++ bytes, back, ?_, ?_⟩,
    ⟨front.relocations ++ before, after, ?_, ?_, hafter⟩⟩
  · simp only [bytes_append, hbytes, List.append_assoc]
  · rw [List.length_append, hplace, size, Nat.add_assoc]
  · simp only [relocations_append, hrelocations, List.append_assoc]
  · intro relocation hmem
    rcases List.mem_append.mp hmem with hmem | hmem
    · have hinside := (hfront.inside relocation hmem).2.1
      omega
    · exact hbefore relocation hmem

/-- A part of a part. -/
theorem HasPart.trans {middle : Piece} {between : Nat} (h : HasPart offset piece between middle)
    (hpart : HasPart between middle place part) : HasPart offset piece place part := by
  have hwithin := hpart.within
  obtain ⟨front, back, hbytes, hplace⟩ := h.bytes
  obtain ⟨head, tail, hmiddle, hinner⟩ := hpart.bytes
  obtain ⟨before, after, hrelocations, hbefore, hafter⟩ := h.relocations
  obtain ⟨first, last, hinside, hfirst, hlast⟩ := hpart.relocations
  refine ⟨⟨front ++ head, tail ++ back, ?_, ?_⟩, ⟨before ++ first, last ++ after, ?_, ?_, ?_⟩⟩
  · simp only [hbytes, hmiddle, List.append_assoc]
  · rw [List.length_append]
    omega
  · simp only [hrelocations, hinside, List.append_assoc]
  · intro relocation hmem
    rcases List.mem_append.mp hmem with hmem | hmem
    · have hless := hbefore relocation hmem
      omega
    · exact hfirst relocation hmem
  · intro relocation hmem
    rcases List.mem_append.mp hmem with hmem | hmem
    · exact hlast relocation hmem
    · have hless := hafter relocation hmem
      omega

/-- Each of some pieces of one size in a row is a part of the row. -/
theorem hasPart_row {piece : Nat → Piece} {width : Nat}
    (hwidth : ∀ index, (piece index).size = width)
    (hapart : ∀ index, Apart (offset + width * index) (piece index)) {count index : Nat}
    (h : index < count) :
    HasPart offset (concat ((List.range count).map piece)) (offset + width * index)
      (piece index) := by
  induction count with
  | zero => omega
  | succ count ih =>
      have hfront := apart_row hwidth count fun index _ => hapart index
      have hsize := size_row hwidth count
      rw [List.range_succ, List.map_append, List.map_cons, List.map_nil, concat_append,
        concat_singleton]
      by_cases hlast : index = count
      · subst hlast
        apply HasPart.append_left hfront
        rw [hsize]
        exact HasPart.refl _ _
      · apply HasPart.append_right (ih (by omega))
        rw [hsize]
        exact hapart count

/-- Each of some instructions is a part of the code of all. -/
theorem hasPart_instructions {instructions : List Instruction} {index : Nat}
    {instruction : Instruction} (h : instructions[index]? = some instruction) :
    let before := (concat ((Piece.instructions offset (instructions.take index)).map Prod.snd)).size
    HasPart offset (concat ((Piece.instructions offset instructions).map Prod.snd))
      (offset + before) (Piece.instruction (offset + before) instruction) := by
  induction instructions generalizing offset index with
  | nil => cases h
  | cons first rest ih =>
      have hall : concat ((Piece.instructions offset (first :: rest)).map Prod.snd) =
          Piece.instruction offset first ++ concat ((Piece.instructions
            (offset + (Piece.instruction offset first).size) rest).map Prod.snd) := by
        rw [Piece.instructions, List.map_cons, ← List.singleton_append, concat_append,
          concat_singleton]
      rw [hall]
      cases index with
      | zero =>
          obtain rfl := Option.some.inj h
          apply HasPart.append_right (HasPart.refl _ _)
          exact (apart_instructions rest).1
      | succ index =>
          have hbefore : (concat ((Piece.instructions offset
              ((first :: rest).take (index + 1))).map Prod.snd)).size =
              (Piece.instruction offset first).size + (concat ((Piece.instructions
                (offset + (Piece.instruction offset first).size)
                  (rest.take index)).map Prod.snd)).size := by
            simp only [List.take_succ_cons, Piece.instructions, List.map_cons, concat,
              List.flatMap_cons, size, List.length_append]
          apply HasPart.append_left (apart_instruction first).1
          rw [hbefore, ← Nat.add_assoc]
          exact ih h

theorem append_empty (piece : Piece) : piece ++ empty = piece := by
  obtain ⟨bytes, relocations, diagnostics⟩ := piece
  change (⟨bytes ++ [], relocations ++ [], diagnostics ++ []⟩ : Piece) = _
  simp only [List.append_nil]

theorem append_assoc (a b c : Piece) : a ++ b ++ c = a ++ (b ++ c) := by
  change (⟨_, _, _⟩ : Piece) = ⟨_, _, _⟩
  simp only [bytes_append, relocations_append, diagnostics_append, List.append_assoc]

/-! The table of a jump. -/

theorem entryCount_cons (first : Int32 × CodeTarget) (rest : List (Int32 × CodeTarget)) :
    entryCount (first :: rest) = max (first.1.toInt + 1).toNat (entryCount rest) := by
  have hstart (cases : List (Int32 × CodeTarget)) (count : Nat) :
      cases.foldl (fun count entry => max count (entry.1.toInt + 1).toNat) count =
        max count (entryCount cases) := by
    induction cases generalizing count with
    | nil => exact (Nat.max_zero count).symm
    | cons entry others ih =>
        rw [entryCount, List.foldl_cons, List.foldl_cons, ih, ih, Nat.zero_max, Nat.max_assoc]
  have hfirst := hstart rest (max 0 (first.1.toInt + 1).toNat)
  rwa [Nat.zero_max] at hfirst

/-- A table has an entry for each of its cases. -/
theorem lt_entryCount {cases : List (Int32 × CodeTarget)} {entry : Int32 × CodeTarget}
    (h : entry ∈ cases) : entry.1.toInt < entryCount cases := by
  induction cases with
  | nil => cases h
  | cons first rest ih =>
      rw [entryCount_cons]
      rcases List.mem_cons.mp h with rfl | hmem
      · omega
      · have hless := ih hmem
        omega

/-- The last entry of a table is that of its largest key. -/
theorem exists_entryCount {cases : List (Int32 × CodeTarget)} (hcases : cases ≠ [])
    (h : ∀ entry ∈ cases, 0 ≤ entry.1.toInt) :
    ∃ entry ∈ cases, entry.1.toInt + 1 = entryCount cases := by
  induction cases with
  | nil => exact absurd rfl hcases
  | cons first rest ih =>
      obtain ⟨hfirst, hrest⟩ := List.forall_mem_cons.mp h
      rw [entryCount_cons]
      by_cases hnil : rest = []
      · refine ⟨first, List.mem_cons_self .., ?_⟩
        rw [hnil, entryCount, List.foldl_nil]
        omega
      · obtain ⟨entry, hmem, hentry⟩ := ih hnil hrest
        rcases Nat.le_total (entryCount rest) (first.1.toInt + 1).toNat with hle | hle
        · exact ⟨first, List.mem_cons_self .., by omega⟩
        · exact ⟨entry, List.mem_cons_of_mem _ hmem, by omega⟩

theorem tableEntry_of_case {start : Nat} {behind : UInt32} {span : Span}
    {cases : List (Int32 × CodeTarget)} {key : Nat} {entry : Int32 × CodeTarget}
    (h : cases.find? (·.1.toInt == (key : Int)) = some entry) :
    tableEntry start behind span cases key = target (start + 4 * key) entry.2 := by
  have hcase : caseFor? cases key = some entry.2 := by
    rw [caseFor?, h]
    rfl
  rw [tableEntry, hcase]

theorem tableEntry_of_missing {start : Nat} {behind : UInt32} {span : Span}
    {cases : List (Int32 × CodeTarget)} {key : Nat} (h : ∀ entry ∈ cases, entry.1.toInt ≠ key) :
    tableEntry start behind span cases key =
      field (start + 4 * key) (.unitOffset behind) span := by
  have hcase : caseFor? cases key = none := by
    rw [caseFor?, Option.map_eq_none_iff, List.find?_eq_none]
    intro entry hentry
    rw [beq_iff_eq]
    exact h entry hentry
  rw [tableEntry, hcase]

theorem apart_tableEntry (start : Nat) (behind : UInt32) (span : Span)
    (cases : List (Int32 × CodeTarget)) (key : Nat) :
    Apart (start + 4 * key) (tableEntry start behind span cases key) := by
  simp only [tableEntry]
  split
  · exact apart_target _
  · exact apart_field _ _

/-- The length of a table stands in front of its entries. -/
theorem hasPart_tableLength (span : Span) (cases : List (Int32 × CodeTarget)) :
    HasPart offset (targetTable offset span cases) offset (u16 (entryCount cases)) := by
  have hrow := @apart_row (offset + 2) _ _ (size_tableEntry (offset + 2)
    (offset + 2 + 4 * entryCount cases).toUInt32 span cases) (entryCount cases)
    fun key _ => apart_tableEntry _ _ _ _ key
  have htable := (HasPart.refl offset (u16 (entryCount cases))).append_right hrow
  rw [targetTable_eq]
  exact ⟨htable.bytes, htable.relocations⟩

theorem hasPart_tableEntry (span : Span) {cases : List (Int32 × CodeTarget)} {key : Nat}
    (h : key < entryCount cases) :
    HasPart offset (targetTable offset span cases) (offset + 2 + 4 * key)
      (tableEntry (offset + 2) (offset + 2 + 4 * entryCount cases).toUInt32 span cases key) := by
  have hentry := hasPart_row (size_tableEntry _ _ _ _) (apart_tableEntry (offset + 2)
    (offset + 2 + 4 * entryCount cases).toUInt32 span cases) h
  have htable := @HasPart.append_left offset _ _ _ (u16 (entryCount cases)) (apart_of_nil rfl)
    hentry
  rw [targetTable_eq]
  exact ⟨htable.bytes, htable.relocations⟩

end Piece

/-- The instruction that jumps by a table of some cases to the one that a number selects. -/
def Instruction.tableJump (selector : Number) (cases : List (Int32 × CodeTarget))
    (selectorSpan tableSpan span : Span) : Instruction :=
  ⟨⟨0x4a⟩, 0, [⟨.number selector, selectorSpan⟩,
    ⟨.targetTable (cases.map Prod.fst) (cases.map Prod.snd), tableSpan⟩], span⟩

theorem Instruction.caseWarnings_tableJump (selector : Number)
    (cases : List (Int32 × CodeTarget)) (selectorSpan tableSpan span : Span) :
    (tableJump selector cases selectorSpan tableSpan span).caseWarnings =
      NovelAsm.caseWarnings cases := by
  have hzip : (cases.map Prod.fst).zip (cases.map Prod.snd) = cases := by
    rw [← List.unzip_fst, ← List.unzip_snd, List.zip_unzip]
  have hrow : ((Form.ofInstruction?
      (tableJump selector cases selectorSpan tableSpan span)).isNone ||
      (tableJump selector cases selectorSpan tableSpan span).opcode == .select) = false := by rfl
  rw [caseWarnings, if_neg (by rw [hrow]; exact Bool.false_ne_true)]
  simp only [tableJump, List.flatMap_cons, List.flatMap_nil, OperandValue.caseWarnings, hzip,
    List.nil_append, List.append_nil]

namespace Piece

section TableJump

variable (selector : Number) (cases : List (Int32 × CodeTarget))
  (selectorSpan tableSpan span : Span)

/-- A table jump ends with its table. -/
theorem tableJump_eq (offset : Nat) :
    Piece.instruction offset (.tableJump selector cases selectorSpan tableSpan span) =
      u8 0x4a ++ number selectorSpan selector ++
        targetTable (offset + (1 + (number selectorSpan selector).size)) tableSpan cases := by
  have hrow : Form.ofInstruction? (.tableJump selector cases selectorSpan tableSpan span) =
      some ⟨⟨0x4a⟩, "jt", .plain, 0, [.number, .targetTable]⟩ := by rfl
  have hnotSelect : ((⟨0x4a⟩ : Opcode) == .select) = false := by rfl
  have hhead : head ⟨⟨0x4a⟩, "jt", .plain, 0, [.number, .targetTable]⟩
      (.tableJump selector cases selectorSpan tableSpan span) = u8 0x4a := by rfl
  have hzip : (cases.map Prod.fst).zip (cases.map Prod.snd) = cases := by
    rw [← List.unzip_fst, ← List.unzip_snd, List.zip_unzip]
  have hsize : (u8 0x4a).size = 1 := by rfl
  rw [Piece.instruction, hrow]
  simp only [hhead, hsize]
  simp only [Instruction.tableJump, hnotSelect, operands, operand, hzip, append_empty,
    Bool.false_eq_true, if_false, append_assoc, Nat.add_assoc]

/-- The opcode and the number that selects a case stand in front of the table. -/
theorem hasPart_tableJump (offset : Nat) :
    HasPart offset (Piece.instruction offset
      (.tableJump selector cases selectorSpan tableSpan span))
        offset (u8 0x4a ++ number selectorSpan selector) ∧
      HasPart offset (Piece.instruction offset
        (.tableJump selector cases selectorSpan tableSpan span))
        (offset + (1 + (number selectorSpan selector).size))
        (targetTable (offset + (1 + (number selectorSpan selector).size)) tableSpan cases) := by
  have hsize : (u8 0x4a ++ number selectorSpan selector).size =
      1 + (number selectorSpan selector).size := by
    simp only [size, bytes_append, List.length_append]
    rfl
  have hnil : (u8 0x4a ++ number selectorSpan selector).relocations = [] := by
    rw [relocations_append, relocations_number]
    rfl
  rw [tableJump_eq]
  constructor
  · apply HasPart.append_right (HasPart.refl _ _)
    rw [hsize]
    exact apart_targetTable _ _
  · apply HasPart.append_left (apart_of_nil hnil)
    rw [hsize]
    exact HasPart.refl _ _

end TableJump

end Piece

theorem CodeUnit.bytesBefore_succ {unit : CodeUnit} {index : Nat} {instruction : Instruction}
    (h : unit.instructions[index]? = some instruction) :
    unit.bytesBefore (index + 1) =
      unit.bytesBefore index + (Piece.instruction (unit.bytesBefore index) instruction).size := by
  have hlast : Piece.instructions (unit.bytesBefore index) [instruction] =
      [(unit.bytesBefore index, Piece.instruction (unit.bytesBefore index) instruction)] := rfl
  rw [bytesBefore, List.take_add_one, h, Option.toList_some, Piece.instructions_append,
    List.map_append, Piece.concat_append, Nat.zero_add]
  rw [Piece.size, Piece.bytes_append, List.length_append]
  change _ + (Piece.concat ((Piece.instructions (unit.bytesBefore index)
    [instruction]).map Prod.snd)).size = _
  rw [hlast, List.map_cons, List.map_nil, Piece.concat_singleton]
  rfl

/-- Each instruction of a unit is a part of what is encoded for the unit. -/
theorem CodeUnit.hasPart_encode {unit : CodeUnit} {index : Nat} {instruction : Instruction}
    (h : unit.instructions[index]? = some instruction) :
    Piece.HasPart 0 unit.encode.piece (unit.bytesBefore index)
      (Piece.instruction (unit.bytesBefore index) instruction) := by
  have hpart := @Piece.hasPart_instructions 0 _ _ _ h
  simp only [Nat.zero_add] at hpart
  exact hpart

theorem CodeUnit.bytesBefore_behind_tableJump {unit : CodeUnit} {index : Nat} {selector : Number}
    {cases : List (Int32 × CodeTarget)} {selectorSpan tableSpan span : Span}
    (h : unit.instructions[index]? =
      some (.tableJump selector cases selectorSpan tableSpan span)) :
    unit.bytesBefore (index + 1) = unit.bytesBefore index +
      (1 + (Piece.number selectorSpan selector).size) + 2 + 4 * Piece.entryCount cases := by
  have hhead : (Piece.u8 0x4a ++ Piece.number selectorSpan selector).bytes =
      0x4a :: (Piece.number selectorSpan selector).bytes := rfl
  rw [CodeUnit.bytesBefore_succ h, Piece.tableJump_eq, Piece.size, Piece.bytes_append, hhead,
    List.length_append, ← Piece.size, Piece.size_targetTable, List.length_cons, ← Piece.size]
  omega

namespace LinkedProgram

theorem fieldsFrom_append (start : Nat) (front back : List CodeUnit) :
    fieldsFrom start (front ++ back) =
      fieldsFrom start front ++ fieldsFrom (start + (unlinkedCode front).length) back := by
  induction front generalizing start with
  | nil => rfl
  | cons unit rest ih =>
      have hlength : (unlinkedCode (unit :: rest)).length =
          unit.codeSize + (unlinkedCode rest).length := by
        rw [unlinkedCode, List.flatMap_cons, List.length_append]
        rfl
      rw [List.cons_append, fieldsFrom, fieldsFrom, ih, hlength, List.append_assoc, Nat.add_assoc]

theorem unlinkedCode_append (front back : List CodeUnit) :
    unlinkedCode (front ++ back) = unlinkedCode front ++ unlinkedCode back := by
  rw [unlinkedCode, List.flatMap_append]
  rfl

/-- The fields of a unit among others. -/
theorem mem_fieldsFrom_unit {front back : List CodeUnit} {unit : CodeUnit} {relocation : Relocation}
    (h : relocation ∈ unit.encode.relocations) :
    ⟨(unlinkedCode front).length, unit, relocation⟩ ∈ fieldsFrom 0 (front ++ unit :: back) := by
  rw [fieldsFrom_append, Nat.zero_add, fieldsFrom]
  apply List.mem_append_right
  apply List.mem_append_left
  exact List.mem_map_of_mem h

namespace Placed

variable {base : UInt32} {front back : List CodeUnit} {unit : CodeUnit} {program : LinkedProgram}

/-- What the encoder wrote without a field is left as it is. -/
theorem take_part (h : Placed base (front ++ unit :: back) program) {place : Nat} {part : Piece}
    (hpart : Piece.HasPart 0 unit.encode.piece place part) (hfields : part.relocations = []) :
    (program.code.drop ((unlinkedCode front).length + place)).take part.size = part.bytes := by
  have hwithin := hpart.within
  obtain ⟨head, tail, hbytes, hplace⟩ := hpart.bytes
  obtain ⟨before, after, hrelocations, hbefore, hafter⟩ := hpart.relocations
  rw [hfields, List.append_nil] at hrelocations
  apply take_drop_eq
  intro index hindex
  rw [h.unchanged _ fun field hfield => ?_]
  · have hcode : unlinkedCode (front ++ unit :: back) =
        unlinkedCode front ++ (head ++ (part.bytes ++ (tail ++ unlinkedCode back))) := by
      have hunit : unlinkedCode (unit :: back) = unit.encode.piece.bytes ++ unlinkedCode back := by
        rw [unlinkedCode, List.flatMap_cons]
        rfl
      rw [unlinkedCode_append, hunit, hbytes]
      simp only [List.append_assoc]
    rw [hcode, Nat.add_assoc, List.getElem?_append_right (by omega),
      List.getElem?_append_right (by omega), List.getElem?_append_left (by omega)]
    congr 1
    omega
  · -- No field of a unit in front, of the unit itself or of one behind reaches into the part.
    have hsize : unit.encode.piece.size = unit.codeSize := rfl
    rw [fieldsFrom_append, fieldsFrom, Nat.zero_add] at hfield
    rw [Piece.size] at hwithin hafter
    rcases List.mem_append.mp hfield with hfield | hfield
    · obtain ⟨-, hmem, hend⟩ := mem_fieldsFrom hfield
      have hinside := Field.inside hmem
      rw [Field.offset]
      omega
    · rcases List.mem_append.mp hfield with hfield | hfield
      · obtain ⟨relocation, hmem, rfl⟩ := List.mem_map.mp hfield
        change relocation ∈ unit.encode.piece.relocations at hmem
        rw [hrelocations] at hmem
        simp only [Field.offset]
        rcases List.mem_append.mp hmem with hmem | hmem
        · have hless := hbefore relocation hmem
          omega
        · have hless := hafter relocation hmem
          omega
      · have hstart := (mem_fieldsFrom hfield).1
        rw [Field.offset]
        omega

/-- No instruction of a unit ends above the limit of the address space. -/
theorem below (h : Placed base (front ++ unit :: back) program) (index : Nat) :
    base.toNat + ((unlinkedCode front).length + unit.bytesBefore index) ≤ addressLimit := by
  have hends := h.ends
  have hinside := unit.bytesBefore_le index
  rw [unlinkedCode_append, List.length_append, unlinkedCode, unlinkedCode, List.flatMap_cons,
    List.length_append] at hends
  rw [CodeUnit.codeSize] at hinside
  rw [unlinkedCode]
  omega

/-- An address that the encoder left open is written over what it wrote instead. -/
theorem take_field (h : Placed base (front ++ unit :: back) program) {place : Nat}
    {referent : Referent} {span : Span}
    (hpart : Piece.HasPart 0 unit.encode.piece place (Piece.field place referent span)) :
    (∀ name, referent = .symbol name → ∀ address, program.symbols.find? name = some address →
      (program.code.drop ((unlinkedCode front).length + place)).take 4 =
        littleEndian 4 address.toNat) ∧
    ∀ offset, referent = .unitOffset offset →
      (program.code.drop ((unlinkedCode front).length + place)).take 4 =
        littleEndian 4 (base.toNat + (unlinkedCode front).length + offset.toNat) := by
  obtain ⟨before, after, hrelocations, -⟩ := hpart.relocations
  have hmem : ⟨place, referent, span⟩ ∈ unit.encode.relocations := by
    change _ ∈ unit.encode.piece.relocations
    rw [hrelocations]
    apply List.mem_append_left
    apply List.mem_append_right
    exact List.mem_singleton_self _
  have hfield := @mem_fieldsFrom_unit front back unit _ hmem
  constructor
  · intro name hname address haddress
    exact h.symbol _ hfield name hname address haddress
  · intro offset hoffset
    exact (h.missing _ hfield offset hoffset).1

end Placed

/-- Where a place leads in a program of some units: to its address, or to the first mark of
its name. -/
def addressOfPlace? (base : UInt32) (units : List CodeUnit) : Place → Option Nat
  | .address value => some value.toNat
  | .symbol name => ((marksFrom base.toNat units).find? (·.1.name == name)).map Prod.snd

/-- What it means that a jump by a table of some cases stands in a program of some units, from an
offset of its code up to another one, with the given bytes for the number that selects a case. -/
structure Dispatches (base : UInt32) (units : List CodeUnit) (program : LinkedProgram)
    (cases : List (Int32 × CodeTarget)) (start behind : Nat) (selector : Bytes) (count : Nat) :
    Prop where
  count_of_nil : cases = [] → count = 0
  /-- The last entry is that of the largest key. -/
  count_of_largest : cases ≠ [] → ∃ entry ∈ cases, entry.1.toInt + 1 = count
  lt_count : ∀ entry ∈ cases, entry.1.toInt < count
  opcode : (program.code.drop start).take (1 + selector.length) = 0x4a :: selector
  length : (program.code.drop (start + (1 + selector.length))).take 2 = littleEndian 2 count
  count_lt : count < 2 ^ 16
  /-- The instruction ends with the last entry, below the limit of the address space. -/
  behind_eq : behind = start + (1 + selector.length) + 2 + 4 * count
  below : base.toNat + behind ≤ addressLimit
  /-- The entry of a key leads where the first of its cases leads. -/
  handled : ∀ key < count, ∀ entry, cases.find? (·.1.toInt == (key : Int)) = some entry →
    ∃ address, addressOfPlace? base units entry.2.place = some address ∧ address < 2 ^ 32 ∧
      (program.code.drop (start + (1 + selector.length) + 2 + 4 * key)).take 4 =
        littleEndian 4 address
  /-- The entry of a key without a case leads behind the instruction. -/
  unhandled : ∀ key < count, (∀ entry ∈ cases, entry.1.toInt ≠ key) →
    (program.code.drop (start + (1 + selector.length) + 2 + 4 * key)).take 4 =
      littleEndian 4 (base.toNat + behind)

theorem Placed.find?_of_address {base : UInt32} {units : List CodeUnit} {program : LinkedProgram}
    (h : Placed base units program) {name : Bytes} {address : Nat}
    (haddress : addressOfPlace? base units (.symbol name) = some address) :
    ∃ value, program.symbols.find? name = some value ∧ value.toNat = address := by
  rw [addressOfPlace?, ← h.defined name] at haddress
  exact Option.map_eq_some_iff.mp haddress

section Dispatches

variable {base : UInt32} {front back : List CodeUnit} {unit : CodeUnit} {program : LinkedProgram}
  {index : Nat} {selector : Number} {cases : List (Int32 × CodeTarget)}
  {selectorSpan tableSpan span : Span}

/-- Where a target was encoded, the address stands to which it leads. -/
theorem Placed.take_target (h : Placed base (front ++ unit :: back) program) {place address : Nat}
    {destination : CodeTarget}
    (hpart : Piece.HasPart 0 unit.encode.piece place (Piece.target place destination))
    (haddress : addressOfPlace? base (front ++ unit :: back) destination.place = some address) :
    address < 2 ^ 32 ∧ (program.code.drop ((unlinkedCode front).length + place)).take 4 =
      littleEndian 4 address := by
  rw [Piece.target] at hpart
  cases hdestination : destination.place with
  | symbol name =>
      rw [hdestination] at hpart haddress
      obtain ⟨value, hvalue, rfl⟩ := h.find?_of_address haddress
      exact ⟨value.toNat_lt, (h.take_field hpart).1 name rfl value hvalue⟩
  | address value =>
      rw [hdestination] at hpart haddress
      obtain rfl := Option.some.inj haddress
      refine ⟨value.toNat_lt, ?_⟩
      have hbytes := h.take_part hpart rfl
      have hsize : (Piece.ofBytes (littleEndian 4 value.toNat)).size = 4 := length_littleEndian _ _
      rwa [hsize] at hbytes

/-- A table jump of a placed unit dispatches to its cases. -/
theorem Placed.dispatches (h : Placed base (front ++ unit :: back) program)
    (hjump : unit.instructions[index]? =
      some (.tableJump selector cases selectorSpan tableSpan span))
    (hkeys : ∀ entry ∈ cases, 0 ≤ entry.1.toInt ∧ entry.1.toInt ≤ 0xfffe)
    (htargets : ∀ entry ∈ cases,
      (addressOfPlace? base (front ++ unit :: back) entry.2.place).isSome) :
    Dispatches base (front ++ unit :: back) program cases
      ((unlinkedCode front).length + unit.bytesBefore index)
      ((unlinkedCode front).length + unit.bytesBefore (index + 1))
      (Piece.number selectorSpan selector).bytes (Piece.entryCount cases) := by
  have hinstruction := CodeUnit.hasPart_encode hjump
  have hbehind := CodeUnit.bytesBefore_behind_tableJump hjump
  have hbelow := h.below (index + 1)
  generalize unit.bytesBefore index = start at hinstruction hbehind ⊢
  obtain ⟨hhead, htable⟩ := Piece.hasPart_tableJump selector cases selectorSpan tableSpan span start
  have hselector : (Piece.number selectorSpan selector).size =
      (Piece.number selectorSpan selector).bytes.length := rfl
  generalize hplace : start + (1 + (Piece.number selectorSpan selector).size) = place at *
  have hcount : Piece.entryCount cases ≤ 0xffff := by
    apply Piece.entryCount_le _ (by omega)
    intro entry hentry
    have hkey := (hkeys entry hentry).2
    omega
  have hoffset (key : Nat) : (unlinkedCode front).length + start +
      (1 + (Piece.number selectorSpan selector).bytes.length) + 2 + 4 * key =
        (unlinkedCode front).length + (place + 2 + 4 * key) := by omega
  constructor
  case count_of_nil =>
    rintro rfl
    rfl
  case count_of_largest =>
    intro hcases
    exact Piece.exists_entryCount hcases fun entry hentry => (hkeys entry hentry).1
  case lt_count => exact fun entry hentry => Piece.lt_entryCount hentry
  case opcode =>
    have hbytes := h.take_part (hinstruction.trans hhead) (by
      rw [Piece.relocations_append, Piece.relocations_number]
      rfl)
    have hopcode : (Piece.u8 0x4a ++ Piece.number selectorSpan selector).bytes =
        0x4a :: (Piece.number selectorSpan selector).bytes := rfl
    rwa [Piece.size, hopcode, List.length_cons, Nat.add_comm _ 1] at hbytes
  case length =>
    have hbytes :=
      h.take_part (hinstruction.trans (htable.trans (Piece.hasPart_tableLength ..))) rfl
    rw [Nat.add_assoc, ← hselector, hplace]
    exact hbytes
  case count_lt => omega
  case behind_eq => omega
  case below => exact hbelow
  case handled =>
    intro key hkey entry hentry
    have hpart := hinstruction.trans (htable.trans (Piece.hasPart_tableEntry tableSpan hkey))
    rw [Piece.tableEntry_of_case hentry] at hpart
    obtain ⟨address, haddress⟩ :=
      Option.isSome_iff_exists.mp (htargets entry (List.mem_of_find?_eq_some hentry))
    obtain ⟨hlt, hbytes⟩ := h.take_target hpart haddress
    exact ⟨address, haddress, hlt, by rwa [hoffset]⟩
  case unhandled =>
    intro key hkey hmissing
    have hpart := hinstruction.trans (htable.trans (Piece.hasPart_tableEntry tableSpan hkey))
    rw [Piece.tableEntry_of_missing hmissing] at hpart
    have hbytes := (h.take_field hpart).2 _ rfl
    rw [toNat_toUInt32 (by omega), ← hbehind, Nat.add_assoc base.toNat] at hbytes
    rwa [hoffset]

/-- A jump by any table of cases, at any position of a program that fits below the address limit,
leads each key to its first case and all other keys behind the instruction; the program warns of
each case that is not reached, once and in their order. -/
theorem ofUnits_dispatches
    (hfits : base.toNat + (unlinkedCode (front ++ unit :: back)).length ≤ addressLimit)
    (hjump : unit.instructions[index]? =
      some (.tableJump selector cases selectorSpan tableSpan span))
    (hkeys : ∀ entry ∈ cases, 0 ≤ entry.1.toInt ∧ entry.1.toInt ≤ 65534)
    (htargets : ∀ entry ∈ cases,
      (addressOfPlace? base (front ++ unit :: back) entry.2.place).isSome) :
    let program := ofUnits base (front ++ unit :: back)
    (∃ count, Dispatches base (front ++ unit :: back) program cases
      ((unlinkedCode front).length + unit.bytesBefore index)
      ((unlinkedCode front).length + unit.bytesBefore (index + 1))
      (Piece.number selectorSpan selector).bytes count) ∧
    program.diagnostics.filter Diagnostic.isRepeatedCase =
      front.flatMap CodeUnit.caseWarnings ++
        ((unit.instructions.take index).flatMap Instruction.caseWarnings ++ caseWarnings cases ++
          (unit.instructions.drop (index + 1)).flatMap Instruction.caseWarnings) ++
        back.flatMap CodeUnit.caseWarnings := by
  intro program
  refine ⟨⟨_, (placed_of_fits hfits).dispatches hjump hkeys htargets⟩, ?_⟩
  obtain ⟨hlt, hinstruction⟩ := List.getElem?_eq_some_iff.mp hjump
  have hsplit : unit.instructions = unit.instructions.take index ++
      .tableJump selector cases selectorSpan tableSpan span ::
        unit.instructions.drop (index + 1) := by
    rw [← hinstruction, ← List.drop_eq_getElem_cons hlt, List.take_append_drop]
  have hunit : unit.caseWarnings =
      (unit.instructions.take index).flatMap Instruction.caseWarnings ++ caseWarnings cases ++
        (unit.instructions.drop (index + 1)).flatMap Instruction.caseWarnings := by
    rw [CodeUnit.caseWarnings]
    conv_lhs => rw [hsplit]
    rw [List.flatMap_append, List.flatMap_cons, Instruction.caseWarnings_tableJump,
      List.append_assoc]
  rw [ofUnits_caseWarnings hfits, List.flatMap_append, List.flatMap_cons, hunit,
    ← List.append_assoc]

end Dispatches

/-- Two jumps with repeated and missing keys behind another unit. -/
theorem ofUnits_dispatches_repeated :
    let leave : CodeUnit := ⟨.script, ascii "EXIT", [⟨.retsub, 0, [], .origin⟩],
      [⟨ascii "EXIT", 0, .origin⟩]⟩
    let cases : List (Int32 × CodeTarget) :=
      [(2, ⟨.symbol (ascii "EXIT"), .origin⟩), (0, ⟨.address 0x1234, .origin⟩),
        (2, ⟨.address 5, .origin⟩), (0, ⟨.symbol (ascii "MAIN"), .origin⟩)]
    let choose : CodeUnit := ⟨.script, ascii "MAIN",
      [⟨.retsub, 0, [], .origin⟩, .tableJump (.constant 2) cases .origin .origin .origin],
      [⟨ascii "MAIN", 1, .origin⟩]⟩
    let program := ofUnits 0x100 [leave, choose]
    program.code = [0x49, 0x49, 0x4a, 0x02, 0x03, 0x00, 0x34, 0x12, 0, 0, 0x12, 0x01, 0, 0,
      0x00, 0x01, 0, 0] ∧
    (∃ count, Dispatches 0x100 [leave, choose] program cases 2 18 [0x02] count) ∧
    program.diagnostics.filter Diagnostic.isRepeatedCase =
      [(EncodingProblem.caseRepeated 2).diagnose .origin,
        (EncodingProblem.caseRepeated 0).diagnose .origin] := by
  intro leave cases choose program
  have hfacts : program.code = [0x49, 0x49, 0x4a, 0x02, 0x03, 0x00, 0x34, 0x12, 0, 0, 0x12, 0x01,
      0, 0, 0x00, 0x01, 0, 0] ∧
      (0x100 : UInt32).toNat + (unlinkedCode [leave, choose]).length ≤ addressLimit ∧
      (∀ entry ∈ cases, 0 ≤ entry.1.toInt ∧ entry.1.toInt ≤ 65534) ∧
      ∀ entry ∈ cases, (addressOfPlace? 0x100 [leave, choose] entry.2.place).isSome := by
    decide +kernel
  obtain ⟨hcode, hfits, hkeys, htargets⟩ := hfacts
  obtain ⟨hdispatches, hwarnings⟩ := @ofUnits_dispatches 0x100 [leave] [] choose 1 _ _ _ _ _
    hfits rfl hkeys htargets
  exact ⟨hcode, hdispatches, hwarnings⟩

end LinkedProgram

end NovelAsm
