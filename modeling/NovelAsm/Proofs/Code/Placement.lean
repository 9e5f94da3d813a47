import NovelAsm.Proofs.Code.References

/-!
Where linking puts things. The encoder counts from the beginning of a unit and does not know
addresses; the linker lays units out and writes over what the encoder left open. For any
units, also for such as no source gives, the fields of a unit follow one another inside of
it (`Piece.Apart`), so the linker writes each field once and nothing else, and as the last
unit ends below the address limit, no position was ever cut to 32 bits on the way
(`LinkedProgram.ofUnits_placed`).
-/

namespace NovelAsm

theorem getElem?_overwrite_outside (block : Array UInt8) {offset index : Nat} {bytes : Bytes}
    (h : index < offset ∨ offset + bytes.length ≤ index) :
    (overwrite block offset bytes)[index]? = block[index]? := by
  induction bytes generalizing block offset with
  | nil => rfl
  | cons first rest ih =>
      rw [List.length_cons] at h
      rw [overwrite, ih _ (by omega), Array.getElem?_setIfInBounds_ne (by omega)]

theorem getElem?_overwrite_inside (block : Array UInt8) {offset index : Nat} {bytes : Bytes}
    (hinside : offset + bytes.length ≤ block.size) (h : index < bytes.length) :
    (overwrite block offset bytes)[offset + index]? = bytes[index]? := by
  induction bytes generalizing block offset index with
  | nil => cases h
  | cons first rest ih =>
      rw [List.length_cons] at hinside h
      rw [overwrite]
      cases index with
      | zero =>
          rw [getElem?_overwrite_outside _ (by omega)]
          simp only [Nat.add_zero, List.getElem?_cons_zero]
          rw [Array.getElem?_setIfInBounds_self_of_lt (by omega)]
      | succ index =>
          have hnext := @ih (block.setIfInBounds offset first) (offset + 1) index
            (by rw [Array.size_setIfInBounds]; omega) (by omega)
          rw [List.getElem?_cons_succ, ← hnext]
          congr 1
          omega

namespace Piece

/-- The fields of a piece stand in it one behind another. -/
structure Apart (offset : Nat) (piece : Piece) : Prop where
  inside : Refers (fun _ => True) offset piece
  ordered : piece.relocations.Pairwise fun a b => a.offset + 4 ≤ b.offset

variable {offset : Nat}

theorem apart_of_nil {piece : Piece} (h : piece.relocations = []) : Apart offset piece where
  inside := refers_of_nil h
  ordered := h ▸ List.Pairwise.nil

theorem Apart.append {a b : Piece} (ha : Apart offset a) (hb : Apart (offset + a.size) b) :
    Apart offset (a ++ b) where
  inside := ha.inside.append hb.inside
  ordered := by
    refine List.pairwise_append.mpr ⟨ha.ordered, hb.ordered, fun first hfirst second hsecond => ?_⟩
    exact Nat.le_trans (ha.inside first hfirst).2.1 (hb.inside second hsecond).1

theorem apart_field (referent : Referent) (span : Span) :
    Apart offset (field offset referent span) where
  inside := refers_field span fun _ _ => trivial
  ordered := List.pairwise_singleton _ _

theorem apart_target (destination : CodeTarget) : Apart offset (target offset destination) := by
  simp only [target]
  split
  · exact apart_field _ _
  · exact apart_of_nil rfl

theorem apart_targets (destinations : List CodeTarget) (count : Nat) :
    Apart (offset + 4 * count) (concat ((destinations.zipIdx count).map fun (destination, index) =>
      target (offset + 4 * index) destination)) := by
  induction destinations generalizing count with
  | nil => exact apart_of_nil rfl
  | cons first rest ih =>
      rw [List.zipIdx_cons, List.map_cons, ← List.singleton_append, concat_append, concat_singleton]
      refine (apart_target first).append ?_
      rw [size_target, Nat.add_assoc, ← Nat.mul_succ]
      exact ih (count + 1)

/-- Pieces of one size in a row. -/
theorem apart_row {piece : Nat → Piece} {width : Nat} (hwidth : ∀ index, (piece index).size = width)
    (count : Nat) (h : ∀ index < count, Apart (offset + width * index) (piece index)) :
    Apart offset (concat ((List.range count).map piece)) := by
  induction count with
  | zero => exact apart_of_nil rfl
  | succ count ih =>
      have hlast := h count (by omega)
      rw [← size_row hwidth count] at hlast
      rw [List.range_succ, List.map_append, List.map_cons, List.map_nil, concat_append,
        concat_singleton]
      exact (ih fun index hindex => h index (by omega)).append hlast

theorem size_tableEntry (start : Nat) (behind : UInt32) (span : Span)
    (cases : List (Int32 × CodeTarget)) (key : Nat) :
    (tableEntry start behind span cases key).size = 4 := by
  simp only [tableEntry]
  split
  · exact size_target _
  · simp [field, size, length_littleEndian]

theorem size_targetTable (span : Span) (cases : List (Int32 × CodeTarget)) :
    (targetTable offset span cases).size = 2 + 4 * entryCount cases := by
  have hrow := size_row (size_tableEntry (offset + 2) (offset + 2 + 4 * entryCount cases).toUInt32
    span cases) (entryCount cases)
  rw [← hrow, targetTable_eq]
  simp [size, u16, ofBytes, length_littleEndian]

theorem apart_targetTable (span : Span) (cases : List (Int32 × CodeTarget)) :
    Apart offset (targetTable offset span cases) := by
  have hcount : (u16 (entryCount cases)).size = 2 := by simp [u16, size, length_littleEndian]
  have hrow : Apart (offset + (u16 (entryCount cases)).size) (concat ((List.range
      (entryCount cases)).map (tableEntry (offset + 2)
        (offset + 2 + 4 * entryCount cases).toUInt32 span cases))) := by
    rw [hcount]
    refine apart_row (size_tableEntry _ _ _ _) _ fun key _ => ?_
    simp only [tableEntry]
    split
    · exact apart_target _
    · exact apart_field _ _
  have hsize : Apart offset (u16 (entryCount cases)) := apart_of_nil rfl
  have htable := hsize.append hrow
  exact ⟨htable.inside.congr rfl rfl, htable.ordered⟩

/-- A case table of a piece at an offset, with the places where it begins and ends. -/
def HasTable (offset : Nat) (piece : Piece) (place behind : Nat) : Prop :=
  ∃ front span cases back, piece.bytes = front ++ (targetTable place span cases).bytes ++ back ∧
    place = offset + front.length ∧ behind = place + (targetTable place span cases).size

variable {place behind : Nat}

theorem HasTable.append_right {a : Piece} (h : HasTable offset a place behind) (b : Piece) :
    HasTable offset (a ++ b) place behind := by
  obtain ⟨front, span, cases, back, hbytes, hplace, hbehind⟩ := h
  refine ⟨front, span, cases, back ++ b.bytes, ?_, hplace, hbehind⟩
  rw [bytes_append, hbytes]
  simp only [List.append_assoc]

theorem HasTable.append_left (a : Piece) {b : Piece}
    (h : HasTable (offset + a.size) b place behind) : HasTable offset (a ++ b) place behind := by
  obtain ⟨front, span, cases, back, hbytes, hplace, hbehind⟩ := h
  refine ⟨a.bytes ++ front, span, cases, back, ?_, ?_, hbehind⟩
  · rw [bytes_append, hbytes]
    simp only [List.append_assoc]
  · rw [hplace, List.length_append, size, Nat.add_assoc]

/-- A case table of a piece ends in it. -/
theorem HasTable.behind_le {piece : Piece} (h : HasTable offset piece place behind) :
    behind ≤ offset + piece.size := by
  obtain ⟨front, span, cases, back, hbytes, hplace, hbehind⟩ := h
  have hsize : piece.size = front.length + (targetTable place span cases).size + back.length := by
    rw [size, hbytes, List.length_append, List.length_append, size]
  omega

/-- A field that waits for no symbol belongs to a case table and leads behind it. -/
def LeadsBehind (offset : Nat) (piece : Piece) : Prop :=
  ∀ relocation ∈ piece.relocations, ∀ referent, relocation.referent = .unitOffset referent →
    ∃ place behind, HasTable offset piece place behind ∧ place ≤ relocation.offset ∧
      relocation.offset + 4 ≤ behind ∧ referent = behind.toUInt32

theorem leadsBehind_of_symbols {piece : Piece}
    (h : ∀ relocation ∈ piece.relocations, ∃ name, relocation.referent = .symbol name) :
    LeadsBehind offset piece := by
  intro relocation hmem referent hreferent
  obtain ⟨name, hname⟩ := h relocation hmem
  rw [hname] at hreferent
  cases hreferent

theorem leadsBehind_of_nil {piece : Piece} (h : piece.relocations = []) :
    LeadsBehind offset piece :=
  leadsBehind_of_symbols fun _ hmem => by
    rw [h] at hmem
    cases hmem

theorem LeadsBehind.append {a b : Piece} (ha : LeadsBehind offset a)
    (hb : LeadsBehind (offset + a.size) b) : LeadsBehind offset (a ++ b) := by
  intro relocation hmem referent hreferent
  rcases List.mem_append.mp hmem with hmem | hmem
  · obtain ⟨place, behind, htable, hwithin⟩ := ha relocation hmem referent hreferent
    exact ⟨place, behind, htable.append_right b, hwithin⟩
  · obtain ⟨place, behind, htable, hwithin⟩ := hb relocation hmem referent hreferent
    exact ⟨place, behind, htable.append_left a, hwithin⟩

theorem symbol_of_mem_target {destination : CodeTarget} {relocation : Relocation}
    (h : relocation ∈ (target offset destination).relocations) :
    ∃ name, relocation.referent = .symbol name := by
  simp only [target] at h
  split at h
  · rename_i name _
    exact ⟨name, by rw [List.mem_singleton.mp h]⟩
  · cases h

theorem leadsBehind_targets (destinations : List CodeTarget) :
    LeadsBehind offset (targets offset destinations) := by
  refine leadsBehind_of_symbols fun relocation hmem => ?_
  simp only [targets, relocations_concat, List.flatMap_map, List.mem_flatMap] at hmem
  obtain ⟨entry, -, hmem⟩ := hmem
  exact symbol_of_mem_target hmem

theorem leadsBehind_targetTable (span : Span) (cases : List (Int32 × CodeTarget)) :
    LeadsBehind offset (targetTable offset span cases) := by
  intro relocation hmem referent hreferent
  obtain ⟨hfront, hback, -⟩ := (apart_targetTable span cases).inside relocation hmem
  rw [size_targetTable] at hback
  refine ⟨offset, offset + (2 + 4 * entryCount cases),
    ⟨[], span, cases, [], by simp, by simp, by rw [size_targetTable]⟩, hfront, hback, ?_⟩
  rw [targetTable_eq] at hmem
  rcases List.mem_append.mp hmem with hmem | hmem
  · cases hmem
  · simp only [relocations_concat, List.flatMap_map, List.mem_flatMap, tableEntry] at hmem
    obtain ⟨key, -, hmem⟩ := hmem
    split at hmem
    · obtain ⟨name, hname⟩ := symbol_of_mem_target hmem
      rw [hname] at hreferent
      cases hreferent
    · rw [List.mem_singleton.mp hmem] at hreferent
      rw [← Referent.unitOffset.inj hreferent, Nat.add_assoc]

/-- Any operand, also one in no slot of the instruction table. -/
theorem apart_operand (operand : Operand) : Apart offset (Piece.operand offset operand) ∧
    LeadsBehind offset (Piece.operand offset operand) := by
  obtain ⟨value, span⟩ := operand
  have hnil (h : (Piece.operand offset ⟨value, span⟩).relocations = []) :
      Apart offset (Piece.operand offset ⟨value, span⟩) ∧
        LeadsBehind offset (Piece.operand offset ⟨value, span⟩) :=
    ⟨apart_of_nil h, leadsBehind_of_nil h⟩
  cases value
  case target destinations => exact ⟨apart_targets destinations 0, leadsBehind_targets destinations⟩
  case targetTable keys destinations =>
      exact ⟨apart_targetTable span _, leadsBehind_targetTable span _⟩
  all_goals exact hnil (relocations_plain span (by rintro _ ⟨⟩) (by rintro _ _ ⟨⟩))

theorem apart_operands (operands : List Operand) : Apart offset (Piece.operands offset operands) ∧
    LeadsBehind offset (Piece.operands offset operands) := by
  induction operands generalizing offset with
  | nil => exact ⟨apart_of_nil rfl, leadsBehind_of_nil rfl⟩
  | cons first rest ih =>
      exact ⟨(apart_operand first).1.append ih.1, (apart_operand first).2.append ih.2⟩

theorem apart_instruction (instruction : Instruction) :
    Apart offset (Piece.instruction offset instruction) ∧
      LeadsBehind offset (Piece.instruction offset instruction) := by
  simp only [Piece.instruction]
  split
  · exact ⟨apart_of_nil rfl, leadsBehind_of_nil rfl⟩
  · rename_i form _
    split
    · exact ⟨apart_of_nil rfl, leadsBehind_of_nil rfl⟩
    · have hhead := relocations_head form instruction
      have hoperands := @apart_operands (offset + (head form instruction).size)
        instruction.operands
      exact ⟨(apart_of_nil hhead).append hoperands.1, (leadsBehind_of_nil hhead).append hoperands.2⟩

theorem instructions_append (offset : Nat) (front back : List Instruction) :
    instructions offset (front ++ back) = instructions offset front ++
      instructions (offset + (concat ((instructions offset front).map Prod.snd)).size) back := by
  induction front generalizing offset with
  | nil => rfl
  | cons first rest ih =>
      simp only [List.cons_append, instructions, ih, List.map_cons, concat, List.flatMap_cons, size,
        List.length_append, Nat.add_assoc]

theorem apart_instructions (instructions : List Instruction) :
    Apart offset (concat ((Piece.instructions offset instructions).map Prod.snd)) ∧
      LeadsBehind offset (concat ((Piece.instructions offset instructions).map Prod.snd)) := by
  induction instructions generalizing offset with
  | nil => exact ⟨apart_of_nil rfl, leadsBehind_of_nil rfl⟩
  | cons first rest ih =>
      rw [Piece.instructions, List.map_cons, ← List.singleton_append, concat_append,
        concat_singleton]
      exact ⟨(apart_instruction first).1.append ih.1, (apart_instruction first).2.append ih.2⟩

end Piece

namespace CodeUnit

/-- The number of bytes in front of an instruction of a unit; behind the last one, those of
the unit. -/
def bytesBefore (unit : CodeUnit) (index : Nat) : Nat :=
  (Piece.concat ((Piece.instructions 0 (unit.instructions.take index)).map Prod.snd)).size

/-- The number of bytes of a unit. -/
def codeSize (unit : CodeUnit) : Nat := unit.encode.bytes.length

theorem bytesBefore_of_length_le (unit : CodeUnit) {index : Nat}
    (h : unit.instructions.length ≤ index) : unit.bytesBefore index = unit.codeSize := by
  rw [bytesBefore, List.take_of_length_le h]
  rfl

/-- An instruction stands behind those in front of it. -/
theorem encode_bytes_of_getElem? (unit : CodeUnit) {index : Nat} {instruction : Instruction}
    (h : unit.instructions[index]? = some instruction) :
    ∃ front back, front.length = unit.bytesBefore index ∧ unit.encode.bytes =
      front ++ (Piece.instruction (unit.bytesBefore index) instruction).bytes ++ back := by
  obtain ⟨hlt, rfl⟩ := List.getElem?_eq_some_iff.mp h
  have hsplit : unit.instructions = unit.instructions.take index ++
      unit.instructions[index] :: unit.instructions.drop (index + 1) := by
    rw [← List.drop_eq_getElem_cons hlt, List.take_append_drop]
  have hbytes : unit.encode.bytes = _ := congrArg
    (fun instructions => (Piece.concat ((Piece.instructions 0 instructions).map Prod.snd)).bytes)
    hsplit
  rw [Piece.instructions_append, List.map_append, Piece.concat_append, Piece.instructions,
    List.map_cons, ← List.singleton_append, Piece.concat_append, Piece.concat_singleton,
    Nat.zero_add, Piece.bytes_append, Piece.bytes_append, ← List.append_assoc] at hbytes
  exact ⟨_, _, rfl, hbytes⟩

theorem bytesBefore_le (unit : CodeUnit) (index : Nat) :
    unit.bytesBefore index ≤ unit.codeSize := by
  rcases Nat.lt_or_ge index unit.instructions.length with h | h
  · obtain ⟨front, back, hfront, hbytes⟩ :=
      unit.encode_bytes_of_getElem? (List.getElem?_eq_getElem h)
    rw [codeSize, hbytes, ← hfront, List.append_assoc, List.length_append]
    omega
  · exact (unit.bytesBefore_of_length_le h).le

theorem offsets_instructions (instructions : List Instruction) (offset : Nat) :
    (Piece.instructions offset instructions).map Prod.fst =
      (List.range instructions.length).map fun index => offset + (Piece.concat
        ((Piece.instructions offset (instructions.take index)).map Prod.snd)).size := by
  induction instructions generalizing offset with
  | nil => rfl
  | cons first rest ih =>
      rw [List.length_cons, List.range_succ_eq_map, List.map_cons, List.map_map,
        Piece.instructions, List.map_cons, ih]
      congr 1
      refine List.map_congr_left fun index _ => ?_
      simp only [Function.comp_apply, Nat.succ_eq_add_one, List.take_succ_cons,
        Piece.instructions, List.map_cons, Piece.concat, List.flatMap_cons, Piece.size,
        List.length_append, Nat.add_assoc]

/-- The recorded offset of an instruction counts the bytes in front of it. -/
theorem instructionOffsets_encode (unit : CodeUnit) : unit.encode.instructionOffsets =
    (List.range unit.instructions.length).map fun index =>
      (unit.bytesBefore index).toUInt32 := by
  have hoffsets : unit.encode.instructionOffsets =
      ((Piece.instructions 0 unit.instructions).map Prod.fst).map Nat.toUInt32 := by
    simp [encode]
  rw [hoffsets, offsets_instructions, List.map_map]
  refine List.map_congr_left fun index _ => ?_
  rw [Function.comp_apply, Nat.zero_add, bytesBefore]

/-- A label stands in front of the instruction that it marks. -/
theorem labels_encode (unit : CodeUnit) : unit.encode.labels = unit.labels.map fun mark =>
    ⟨mark.name, (unit.bytesBefore mark.index).toUInt32, mark.span⟩ := by
  have hoffsets := unit.instructionOffsets_encode
  simp only [encode] at hoffsets ⊢
  refine List.map_congr_left fun mark _ => ?_
  rw [hoffsets, List.getElem?_map]
  rcases Nat.lt_or_ge mark.index unit.instructions.length with h | h
  · rw [List.getElem?_range h]
    rfl
  · rw [List.getElem?_eq_none (by rwa [List.length_range]), unit.bytesBefore_of_length_le h]
    rfl

theorem encode_apart (unit : CodeUnit) : Piece.Apart 0 unit.encode.piece ∧
    Piece.LeadsBehind 0 unit.encode.piece :=
  Piece.apart_instructions unit.instructions

end CodeUnit

namespace LinkedProgram

/-- A relocation of a unit that starts at an offset of the code. -/
structure Field where
  start : Nat
  unit : CodeUnit
  relocation : Relocation

namespace Field

/-- Where the field begins in the code. -/
def offset (field : Field) : Nat := field.start + field.relocation.offset

/-- Writes the address of a field into the code, if it has one. -/
def write (symbols : NameMap UInt32) (base : Nat) (code : Array UInt8) (field : Field) :
    Array UInt8 :=
  match addressOf? symbols (base + field.start) field.relocation.referent with
  | .ok address => overwrite code field.offset (littleEndian 4 address.toNat)
  | .error _ => code

variable {symbols : NameMap UInt32} {base : Nat}

theorem size_write (code : Array UInt8) (field : Field) :
    (field.write symbols base code).size = code.size := by
  simp only [write]
  split
  · exact size_overwrite _ _ _
  · rfl

theorem getElem?_write {code : Array UInt8} {field : Field} {index : Nat}
    (h : index < field.offset ∨ field.offset + 4 ≤ index) :
    (field.write symbols base code)[index]? = code[index]? := by
  simp only [write]
  split
  · exact getElem?_overwrite_outside _ (by rwa [length_littleEndian])
  · rfl

theorem size_foldl_write (fields : List Field) (code : Array UInt8) :
    (fields.foldl (write symbols base) code).size = code.size := by
  induction fields generalizing code with
  | nil => rfl
  | cons first rest ih => rw [List.foldl_cons, ih, size_write]

/-- Writing fields changes nothing outside of them. -/
theorem getElem?_foldl_write {fields : List Field} (code : Array UInt8) {index : Nat}
    (h : ∀ field ∈ fields, index < field.offset ∨ field.offset + 4 ≤ index) :
    (fields.foldl (write symbols base) code)[index]? = code[index]? := by
  induction fields generalizing code with
  | nil => rfl
  | cons first rest ih =>
      rw [List.foldl_cons, ih _ fun field hfield => h field (List.mem_cons_of_mem _ hfield)]
      exact getElem?_write (h first (List.mem_cons_self ..))

/-- Of fields that stand one behind another, each holds its address in the end. -/
theorem getElem?_foldl_write_inside {fields : List Field} {code : Array UInt8}
    (hordered : fields.Pairwise fun a b => a.offset + 4 ≤ b.offset)
    (hinside : ∀ field ∈ fields, field.offset + 4 ≤ code.size) {field : Field}
    (hfield : field ∈ fields) {address : UInt32}
    (haddress : addressOf? symbols (base + field.start) field.relocation.referent = .ok address)
    {index : Nat} (hindex : index < 4) :
    (fields.foldl (write symbols base) code)[field.offset + index]? =
      (littleEndian 4 address.toNat)[index]? := by
  induction fields generalizing code with
  | nil => cases hfield
  | cons first rest ih =>
      obtain ⟨hfirst, hrest⟩ := List.pairwise_cons.mp hordered
      rw [List.foldl_cons]
      rcases List.mem_cons.mp hfield with rfl | hmem
      · rw [getElem?_foldl_write _ fun other hother => .inl (by have := hfirst other hother; omega)]
        simp only [write, haddress]
        have hsize := hinside field (List.mem_cons_self ..)
        exact getElem?_overwrite_inside _ (by rwa [length_littleEndian])
          (by rwa [length_littleEndian])
      · refine ih hrest (fun other hother => ?_) hmem
        rw [size_write]
        exact hinside other (List.mem_cons_of_mem _ hother)

end Field

/-- The fields of units that are laid out from an offset of the code on. -/
def fieldsFrom (start : Nat) : List CodeUnit → List Field
  | [] => []
  | unit :: rest =>
      unit.encode.relocations.map (Field.mk start unit) ++ fieldsFrom (start + unit.codeSize) rest

/-- The label marks of units that are laid out from an address on, each with its address. -/
def marksFrom (start : Nat) : List CodeUnit → List (LabelMark × Nat)
  | [] => []
  | unit :: rest =>
      unit.labels.map (fun mark => (mark, start + unit.bytesBefore mark.index)) ++
        marksFrom (start + unit.codeSize) rest

/-- The encodings of units one behind another. -/
def unlinkedCode (units : List CodeUnit) : Bytes := units.flatMap fun unit => unit.encode.bytes

/-- A unit with the beginning of a file as its origin, which is how units are linked that come
from no file. -/
def unplaced (unit : CodeUnit) : PlacedUnit := ⟨unit.encode, .origin⟩

theorem length_unlinkedCode (units : List CodeUnit) :
    (unlinkedCode units).length = (units.map CodeUnit.codeSize).sum := by
  rw [unlinkedCode, List.length_flatMap]
  rfl

/-- A field of units in a row begins behind their start, lies inside its own unit, and its unit
ends where they end or before. -/
theorem mem_fieldsFrom {units : List CodeUnit} {start : Nat} {field : Field}
    (h : field ∈ fieldsFrom start units) :
    start ≤ field.start ∧ field.relocation ∈ field.unit.encode.relocations ∧
      field.start + field.unit.codeSize ≤ start + (unlinkedCode units).length := by
  rw [length_unlinkedCode]
  induction units generalizing start with
  | nil => cases h
  | cons unit rest ih =>
      rw [List.map_cons, List.sum_cons]
      rcases List.mem_append.mp h with h | h
      · obtain ⟨relocation, hmem, rfl⟩ := List.mem_map.mp h
        exact ⟨le_rfl, hmem, by simp only; omega⟩
      · obtain ⟨hstart, hmem, hend⟩ := ih h
        exact ⟨by omega, hmem, by omega⟩

theorem Field.inside {field : Field} (h : field.relocation ∈ field.unit.encode.relocations) :
    field.relocation.offset + 4 ≤ field.unit.codeSize := by
  have hinside := (field.unit.encode_apart.1.inside _ h).2.1
  rwa [Nat.zero_add] at hinside

theorem fieldsFrom_ordered (start : Nat) (units : List CodeUnit) :
    (fieldsFrom start units).Pairwise fun a b => a.offset + 4 ≤ b.offset := by
  induction units generalizing start with
  | nil => exact List.Pairwise.nil
  | cons unit rest ih =>
      refine List.pairwise_append.mpr ⟨List.pairwise_map.mpr ?_, ih _, fun a ha b hb => ?_⟩
      · refine unit.encode_apart.1.ordered.imp fun {a b} hab => ?_
        simp only [Field.offset]
        omega
      · obtain ⟨relocation, hmem, rfl⟩ := List.mem_map.mp ha
        have hinside := @Field.inside ⟨start, unit, relocation⟩ hmem
        have hstart := (mem_fieldsFrom hb).1
        simp only [Field.offset] at hinside ⊢
        omega

theorem patchUnit_code {symbols : NameMap UInt32} {base start : Nat} {placed : PlacedUnit}
    (unit : CodeUnit) {code : Array UInt8} (diagnostics : Diagnostics)
    {relocations : List Relocation}
    (h : ∀ relocation ∈ relocations, start + relocation.offset + 4 ≤ code.size) :
    (patchUnit symbols base (base + start) placed code diagnostics relocations).1 =
      (relocations.map (Field.mk start unit)).foldl (Field.write symbols base) code := by
  induction relocations generalizing code diagnostics with
  | nil => rfl
  | cons relocation rest ih =>
      have hinside := h relocation (List.mem_cons_self ..)
      have hrest (code' : Array UInt8) (hsize : code'.size = code.size) :
          ∀ other ∈ rest, start + other.offset + 4 ≤ code'.size := fun other hother =>
        hsize ▸ h other (List.mem_cons_of_mem _ hother)
      rw [List.map_cons, List.foldl_cons, Field.write, patchUnit]
      cases haddress : addressOf? symbols (base + start) relocation.referent with
      | error problem =>
          have hpatch : patchField symbols base (base + start) placed.unit.name code relocation =
              .error problem := by
            simp only [patchField, haddress]
            rfl
          rw [hpatch]
          exact ih _ (hrest code rfl)
      | ok address =>
          have hpatch : patchField symbols base (base + start) placed.unit.name code relocation =
              .ok (overwrite code (start + relocation.offset)
                (littleEndian 4 address.toNat)) := by
            simp only [patchField, haddress, patch?, Nat.add_sub_cancel_left, if_pos hinside]
            rfl
          rw [hpatch]
          exact ih _ (hrest _ (size_overwrite _ _ _))

/-- Patching all units is writing all their fields. -/
theorem patchAll_code {symbols : NameMap UInt32} {base start : Nat} {units : List CodeUnit}
    {code : Array UInt8} (diagnostics : Diagnostics)
    (h : ∀ field ∈ fieldsFrom start units, field.offset + 4 ≤ code.size) :
    (patchAll symbols base code diagnostics (starts unplaced (base + start) units)).1 =
      (fieldsFrom start units).foldl (Field.write symbols base) code := by
  induction units generalizing start code diagnostics with
  | nil => rfl
  | cons unit rest ih =>
      have hunit := @patchUnit_code symbols base start (unplaced unit) unit code diagnostics
        unit.encode.relocations fun relocation hmem =>
          h ⟨start, unit, relocation⟩ (List.mem_append_left _ (List.mem_map_of_mem hmem))
      have hsize : (patchUnit symbols base (base + start) (unplaced unit) code diagnostics
          unit.encode.relocations).1.size = code.size := by
        rw [hunit, Field.size_foldl_write]
      rw [starts, patchAll, fieldsFrom, List.foldl_append, ← hunit, Nat.add_assoc]
      exact ih _ fun field hfield => hsize ▸ h field (List.mem_append_right _ hfield)

theorem toNat_toUInt32 {value : Nat} (h : value ≤ addressLimit) : value.toUInt32.toNat = value := by
  rw [addressLimit] at h
  exact UInt32.toNat_ofNat_of_lt' (by rw [UInt32.size]; omega)

/-- The labels that linking defines are the marks at their addresses, if these are below the
limit. -/
theorem labelsFrom_unplaced {units : List CodeUnit} {start : Nat}
    (h : start + (unlinkedCode units).length ≤ addressLimit) :
    (labelsFrom unplaced start units).map (fun label => (label.1, label.2.toNat)) =
      (marksFrom start units).map fun mark => (mark.1.name, mark.2) := by
  rw [length_unlinkedCode] at h
  induction units generalizing start with
  | nil => rfl
  | cons unit rest ih =>
      rw [List.map_cons, List.sum_cons] at h
      rw [labelsFrom, marksFrom, List.map_append, List.map_append,
        show (unplaced unit).unit.bytes.length = unit.codeSize from rfl, ih (by omega)]
      congr 1
      rw [show (unplaced unit).unit.labels = _ from unit.labels_encode]
      simp only [List.map_map]
      refine List.map_congr_left fun mark _ => ?_
      have hoffset := unit.bytesBefore_le mark.index
      have hexact : (unit.bytesBefore mark.index).toUInt32.toNat = unit.bytesBefore mark.index :=
        toNat_toUInt32 (by omega)
      simp only [Function.comp_apply, hexact]
      rw [toNat_toUInt32 (by omega)]

/-- What it means that units stand in a program one behind another from its base on, with all
addresses in place. All sums are those of natural numbers, so none of them wraps. -/
structure Placed (base : UInt32) (units : List CodeUnit) (program : LinkedProgram) : Prop where
  /-- The code ends below the limit of the address space. -/
  ends : base.toNat + (unlinkedCode units).length ≤ addressLimit
  length_eq : program.code.length = (unlinkedCode units).length
  /-- Outside the fields the code is that of the encoded units. -/
  unchanged : ∀ index, (∀ field ∈ fieldsFrom 0 units,
    index < field.offset ∨ field.offset + 4 ≤ index) →
      program.code[index]? = (unlinkedCode units)[index]?
  /-- No two fields share a byte. -/
  disjoint : (fieldsFrom 0 units).Pairwise fun a b => a.offset + 4 ≤ b.offset
  /-- A field lies inside its own unit. -/
  inside : ∀ field ∈ fieldsFrom 0 units,
    field.relocation.offset + 4 ≤ field.unit.codeSize ∧
      field.start + field.unit.codeSize ≤ program.code.length
  /-- The field of a symbol that has an address holds this address. -/
  symbol : ∀ field ∈ fieldsFrom 0 units, ∀ name, field.relocation.referent = .symbol name →
    ∀ address, program.symbols.find? name = some address →
      (program.code.drop field.offset).take 4 = littleEndian 4 address.toNat
  /-- The field of a missing key holds the address behind its case table. -/
  missing : ∀ field ∈ fieldsFrom 0 units, ∀ referent,
    field.relocation.referent = .unitOffset referent →
      (program.code.drop field.offset).take 4 =
        littleEndian 4 (base.toNat + field.start + referent.toNat) ∧
      ∃ place, Piece.HasTable 0 field.unit.encode.piece place referent.toNat ∧
        place ≤ field.relocation.offset ∧ field.relocation.offset + 4 ≤ referent.toNat
  /-- The recorded offset of an instruction is the number of bytes in front of it. -/
  recorded : ∀ unit ∈ units, unit.encode.instructionOffsets.map UInt32.toNat =
    (List.range unit.instructions.length).map unit.bytesBefore
  /-- A symbol has the address of the first mark of its name. -/
  defined : ∀ name, (program.symbols.find? name).map UInt32.toNat =
    ((marksFrom base.toNat units).find? (·.1.name == name)).map Prod.snd
  /-- The program is entered at its entry symbol, or else at its base. -/
  entered : program.entry = (program.symbols.find? entrySymbol).getD base

theorem take_drop_eq {code bytes : Bytes} {offset : Nat}
    (h : ∀ index < bytes.length, code[offset + index]? = bytes[index]?) :
    (code.drop offset).take bytes.length = bytes := by
  apply List.ext_getElem?
  intro index
  rw [List.getElem?_take]
  split
  · rename_i hindex
    rw [List.getElem?_drop, h index hindex]
  · rw [List.getElem?_eq_none (by omega)]

/-- Units of which none is refused for the address space are all laid out. -/
theorem place_of_codes {base : UInt32} {units : List CodeUnit}
    (h : ∀ diagnostic ∈ (ofUnits base units).diagnostics, diagnostic.code ≠ ascii "SASM-E4007") :
    ((Layout.empty base).place (units.map unplaced)).2 = true := by
  by_contra hrefused
  rw [Bool.not_eq_true] at hrefused
  obtain ⟨name, span, hreported⟩ := place_refused hrefused
  have hcode : ((LinkProblem.addressSpace name).diagnose span).code = ascii "SASM-E4007" := by
    rw [LinkProblem.diagnose, Diagnostic.error, LinkProblem.code]
  refine h ((LinkProblem.addressSpace name).diagnose span) ?_ hcode
  have hprogram : (ofUnits base units).diagnostics =
      ((Layout.empty base).place (units.map unplaced)).1.diagnostics := by
    change (link base [] (units.map unplaced)).diagnostics = _
    rw [link]
    generalize (Layout.empty base).place (units.map unplaced) = run at hrefused ⊢
    obtain ⟨layout, fits⟩ := run
    obtain rfl : fits = false := hrefused
    rfl
  exact hprogram ▸ hreported

/-- A program whose units are all laid out, with its code as the writing of fields. -/
theorem ofUnits_eq {base : UInt32} {units : List CodeUnit}
    (h : ((Layout.empty base).place (units.map unplaced)).2 = true) :
    base.toNat + (unlinkedCode units).length ≤ addressLimit ∧
      (ofUnits base units).symbols = definedSymbols unplaced base.toNat .empty units ∧
      (ofUnits base units).entry = ((ofUnits base units).symbols.find? entrySymbol).getD base ∧
      (ofUnits base units).code = ((fieldsFrom 0 units).foldl
        (Field.write (ofUnits base units).symbols base.toNat)
          (unlinkedCode units).toArray).toList := by
  have hbase : (Layout.empty base).cursor ≤ addressLimit := by
    have hlt := base.toNat_lt
    simp only [Layout.empty, addressLimit]
    omega
  obtain ⟨hlayout, hend⟩ := place_eq unplaced hbase h
  generalize hrun : (Layout.empty base).place (units.map unplaced) = run at h hlayout
  obtain ⟨layout, fits⟩ := run
  obtain rfl : fits = true := h
  simp only [Layout.empty, List.nil_append] at hlayout hend
  subst hlayout
  have hprogram : ofUnits base units = link base [] (units.map unplaced) := rfl
  have hpatched := @patchAll_code (definedSymbols unplaced base.toNat .empty units) base.toNat 0
    units (unlinkedCode units).toArray
    (units.flatMap fun unit => (unplaced unit).unit.diagnostics.rebase (unplaced unit).origin)
    fun field hfield => by
      obtain ⟨-, hmem, hend⟩ := mem_fieldsFrom hfield
      have hinside := Field.inside hmem
      rw [List.size_toArray, Field.offset]
      omega
  refine ⟨by rw [length_unlinkedCode]; exact hend, ?_, ?_, ?_⟩
  · simp only [hprogram, link, hrun, List.foldl_nil]
  · simp only [hprogram, link, hrun, List.foldl_nil]
  · simp only [hprogram, link, hrun, List.foldl_nil, Layout.code]
    exact congrArg Array.toList hpatched

/-- Units that are all laid out are placed exactly. -/
theorem placed_of_place {base : UInt32} {units : List CodeUnit}
    (h : ((Layout.empty base).place (units.map unplaced)).2 = true) :
    Placed base units (ofUnits base units) := by
  obtain ⟨hends, hsymbols, hentry, hcode⟩ := ofUnits_eq h
  have hlength : (ofUnits base units).code.length = (unlinkedCode units).length := by
    rw [hcode, Array.length_toList, Field.size_foldl_write, List.size_toArray]
  have hinside (field : Field) (hfield : field ∈ fieldsFrom 0 units) :
      field.relocation.offset + 4 ≤ field.unit.codeSize ∧
        field.start + field.unit.codeSize ≤ (unlinkedCode units).length := by
    obtain ⟨-, hmem, hend⟩ := mem_fieldsFrom hfield
    rw [Nat.zero_add] at hend
    exact ⟨Field.inside hmem, hend⟩
  have hwritten (field : Field) (hfield : field ∈ fieldsFrom 0 units) (address : UInt32)
      (haddress : addressOf? (ofUnits base units).symbols (base.toNat + field.start)
        field.relocation.referent = .ok address) :
      ((ofUnits base units).code.drop field.offset).take 4 = littleEndian 4 address.toNat := by
    have hbytes := @take_drop_eq (ofUnits base units).code (littleEndian 4 address.toNat)
      field.offset fun index hindex => by
        rw [length_littleEndian] at hindex
        rw [hcode, Array.getElem?_toList]
        refine Field.getElem?_foldl_write_inside (fieldsFrom_ordered 0 units)
          (fun other hother => ?_) hfield haddress hindex
        obtain ⟨hfit, hend⟩ := hinside other hother
        rw [List.size_toArray, Field.offset]
        omega
    rwa [length_littleEndian] at hbytes
  exact {
    ends := hends
    length_eq := hlength
    unchanged := fun index houtside => by
      rw [hcode, Array.getElem?_toList, Field.getElem?_foldl_write _ houtside,
        List.getElem?_toArray]
    disjoint := fieldsFrom_ordered 0 units
    inside := fun field hfield => hlength ▸ hinside field hfield
    symbol := fun field hfield name hname address haddress =>
      hwritten field hfield address (by rw [hname, addressOf?, haddress])
    missing := fun field hfield referent hreferent => by
      obtain ⟨hfit, hend⟩ := hinside field hfield
      obtain ⟨place, behind, htable, hfront, hbehind, rfl⟩ :=
        field.unit.encode_apart.2 field.relocation (mem_fieldsFrom hfield).2.1 referent
          hreferent
      have hsize : behind ≤ field.unit.codeSize := by
        have hle := htable.behind_le
        rwa [Nat.zero_add] at hle
      have hexact : behind.toUInt32.toNat = behind := toNat_toUInt32 (by omega)
      have hfield' := hwritten field hfield _ (by rw [hreferent, addressOf?])
      rw [hexact, toNat_toUInt32 (by omega)] at hfield'
      rw [hexact]
      exact ⟨hfield', place, htable, hfront, hbehind⟩
    recorded := fun unit hunit => by
      have hunit : unit.codeSize ≤ (unlinkedCode units).length := by
        rw [length_unlinkedCode]
        exact List.single_le_sum (by simp) _ (List.mem_map_of_mem hunit)
      rw [unit.instructionOffsets_encode, List.map_map]
      refine List.map_congr_left fun index _ => toNat_toUInt32 ?_
      have hoffset := unit.bytesBefore_le index
      omega
    defined := fun name => by
      have hlabels := congrArg (fun labels => (labels.find? (·.1 == name)).map Prod.snd)
        (@labelsFrom_unplaced units base.toNat hends)
      simp only [List.find?_map, Option.map_map] at hlabels
      rw [hsymbols, find?_definedSymbols, Option.map_map]
      exact hlabels
    entered := hentry }

/-- Units of which none is refused for the address space are placed exactly. -/
theorem ofUnits_placed {base : UInt32} {units : List CodeUnit}
    (h : ∀ diagnostic ∈ (ofUnits base units).diagnostics, diagnostic.code ≠ ascii "SASM-E4007") :
    Placed base units (ofUnits base units) :=
  placed_of_place (place_of_codes h)

/-- A jump table with a missing key in front of the instruction it jumps to. -/
theorem ofUnits_placed_jump_table :
    let table : CodeUnit := ⟨.script, ascii "ENTRY", [⟨⟨0x4a⟩, 0,
      [⟨.number (.constant 2), .origin⟩,
        ⟨.targetTable [2, 0] [⟨.symbol (ascii "EXIT"), .origin⟩, ⟨.symbol (ascii "X"), .origin⟩],
          .origin⟩], .origin⟩], [⟨ascii "ENTRY", 0, .origin⟩]⟩
    let exit : CodeUnit := ⟨.script, ascii "EXIT", [⟨.retsub, 0, [], .origin⟩],
      [⟨ascii "EXIT", 0, .origin⟩, ⟨ascii "ENTRY", 1, .origin⟩]⟩
    let program := ofUnits 0x100 [table, exit]
    (∀ diagnostic ∈ program.diagnostics, diagnostic.code ≠ ascii "SASM-E4007") ∧
      program.code = [0x4a, 0x02, 0x03, 0x00, 0, 0, 0, 0, 0x10, 0x01, 0, 0, 0x10, 0x01, 0,
        0, 0x49] ∧
      Placed 0x100 [table, exit] program := by
  intro table exit program
  have hcodes : ∀ diagnostic ∈ program.diagnostics, diagnostic.code ≠ ascii "SASM-E4007" := by
    decide +kernel
  exact ⟨hcodes, by decide +kernel, ofUnits_placed hcodes⟩

end LinkedProgram

end NovelAsm
