import NovelAsm.Listing
import NovelAsm.Proofs.Code.Linking
import NovelAsm.Proofs.CodeUnit.Forms

/-!
Linked code is read back. Every instruction that lowering makes has the operands of its
row, and so has its linked form; the codec then reads that form at the recorded offset,
with the next recorded offset at its end.

A list is written with all its items but with a count of one or two bytes. The reader
answers as many items as the count says, so an instruction is read back exactly if its
lists fit their counts (`decodesBack_iff`). Lists that are written in a source are
bounded; the registers that a function preserves and the table of `gt` are not.
-/

namespace NovelAsm

namespace Piece

theorem hasErrors_number (span : Span) (value : Number) :
    (number span value).diagnostics.hasErrors = value.encode?.isNone := by
  simp only [number]
  cases hform : value.encode? with
  | some bytes => rfl
  | none => cases value <;> rfl

theorem hasErrors_string (span : Span) (text : Bytes) :
    (string span text).diagnostics.hasErrors = decide (stringLimit < text.length) := by
  simp only [string]
  split
  · rename_i hlong
    simp [hlong, Diagnostics.hasErrors, EncodingProblem.diagnose, Diagnostic.error,
      Diagnostic.isError]
  · rename_i hshort
    simp [hshort, u16, ofBytes]

theorem hasErrors_concat {α : Type} (items : List α) (piece : α → Piece) :
    (concat (items.map piece)).diagnostics.hasErrors =
      items.any fun item => (piece item).diagnostics.hasErrors := by
  simp [concat, Diagnostics.hasErrors, List.any_flatMap, List.any_map, Function.comp_def]

theorem hasErrors_term (span : Span) (value : Term) :
    (term span value).diagnostics.hasErrors = (term .origin value).diagnostics.hasErrors := by
  cases value with
  | push number => simp [term, hasErrors_number]
  | apply operator => rfl

theorem diagnostics_target (offset : Nat) (destination : CodeTarget) :
    (target offset destination).diagnostics = [] := by
  simp only [target]
  split <;> rfl

theorem diagnostics_targets (offset : Nat) (destinations : List CodeTarget) :
    (targets offset destinations).diagnostics = [] := by
  simp only [targets, concat, List.flatMap_map, List.flatMap_eq_nil_iff]
  intro entry _
  exact diagnostics_target _ _

theorem hasErrors_repeatedCases (seen : List Int32) (cases : List (Int32 × CodeTarget)) :
    (repeatedCases seen cases).hasErrors = false := by
  induction cases generalizing seen with
  | nil => rfl
  | cons entry rest ih =>
      simp only [repeatedCases]
      split
      · exact ih seen
      · exact ih _

/-- Whether an operand can be written does not depend on its place or on its links. -/
theorem hasErrors_operand (address : Referent → UInt32) (behind : UInt32) (offset other : Nat)
    (operand : Operand) :
    (Piece.operand other ⟨operand.value.linked address behind, .origin⟩).diagnostics.hasErrors =
      (Piece.operand offset operand).diagnostics.hasErrors := by
  obtain ⟨value, span⟩ := operand
  cases value <;> simp only [Piece.operand, OperandValue.linked] <;> try rfl
  case number => rw [hasErrors_number, hasErrors_number]
  case string => rw [hasErrors_string, hasErrors_string]
  case numberList => simp [hasErrors_concat, hasErrors_number]
  case bitmask => simp [bitmask, hasErrors_concat, hasErrors_number]
  case target destinations => simp [diagnostics_targets]
  case targetTable keys destinations => simp [targetTable, hasErrors_repeatedCases]
  case paddedTable => simp [hasErrors_concat, paddedNumber, hasErrors_number, ofBytes]
  case expression => simp [hasErrors_concat, hasErrors_term span]

theorem hasErrors_operands (address : Referent → UInt32) (behind : UInt32) (offset other : Nat)
    (operands : List Operand) :
    (Piece.operands other (operands.map fun operand =>
        ⟨operand.value.linked address behind, .origin⟩)).diagnostics.hasErrors =
      (Piece.operands offset operands).diagnostics.hasErrors := by
  induction operands generalizing offset other with
  | nil => rfl
  | cons first rest ih =>
      have hrest := ih (offset + (Piece.operand offset first).size)
        (other + (Piece.operand other ⟨first.value.linked address behind, .origin⟩).size)
      simp only [Piece.operands, List.map_cons, diagnostics_append, Diagnostics.hasErrors_append]
      rw [hasErrors_operand address behind offset other first, hrest]

theorem hasErrors_instruction (address : Referent → UInt32) (behind : UInt32) (offset : Nat)
    (instruction : Instruction) :
    (Piece.instruction offset (instruction.linked address behind)).diagnostics.hasErrors =
      (Piece.instruction offset instruction).diagnostics.hasErrors := by
  have hrow : Form.ofInstruction? (instruction.linked address behind) =
      Form.ofInstruction? instruction := rfl
  have hopcode : (instruction.linked address behind).opcode = instruction.opcode := rfl
  simp only [Piece.instruction, hrow, hopcode]
  split
  · rfl
  · split
    · rfl
    · rename_i form _ _
      simp only [diagnostics_append, Diagnostics.hasErrors_append]
      exact congrArg ((head form instruction).diagnostics.hasErrors || ·)
        (hasErrors_operands address behind _ _ instruction.operands)

end Piece

namespace Slot

/-- The linked form of an operand is one for the same slot. -/
theorem Holds.linked {place : Slot} {value : OperandValue} (h : place.Holds value)
    (address : Referent → UInt32) (behind : UInt32) :
    place.Holds (value.linked address behind) := by
  cases place <;> cases value <;> try exact h
  case target.target destinations =>
      simp only [OperandValue.linked, Holds, List.length_map]
      exact h
  case targetTable.targetTable keys destinations =>
      have hcount : Piece.entryCount (keys.zip destinations) ≤ 0xffff := by
        apply Piece.entryCount_le
        · intro entry hentry
          have hkey := h.2 entry.1 (List.of_mem_zip hentry).1
          omega
        · omega
      simp only [OperandValue.linked, OperandValue.linkedTargets, Holds, List.length_map,
        List.length_range, true_and]
      intro key hkey
      obtain ⟨index, hindex, rfl⟩ := List.mem_map.mp hkey
      have hlt := List.mem_range.mp hindex
      rw [toInt_ofNat (by omega)]
      omega

end Slot

theorem OperandValue.linked_isLinked (address : Referent → UInt32) (behind : UInt32)
    (value : OperandValue) : (value.linked address behind).IsLinked := by
  cases value <;> try trivial
  case target destinations =>
      intro destination hdestination
      obtain ⟨place, -, rfl⟩ := List.mem_map.mp hdestination
      exact place.linked_isLinked address
  case targetTable keys destinations =>
      refine ⟨?_, rfl⟩
      intro destination hdestination
      obtain ⟨key, -, rfl⟩ := List.mem_map.mp hdestination
      split
      · exact CodeTarget.linked_isLinked address _
      · exact ⟨_, rfl⟩

namespace Instruction

variable {instruction : Instruction} {form : Form}

theorem OfForm.linked (h : instruction.OfForm form) (address : Referent → UInt32)
    (behind : UInt32) : (instruction.linked address behind).OfForm form where
  row := h.row
  subtype := h.subtype
  operands := by
    simp only [Instruction.linked, List.forall₂_map_right_iff]
    exact h.operands.imp fun _ _ hholds => hholds.linked address behind

theorem linked_isLinked (address : Referent → UInt32) (behind : UInt32)
    (instruction : Instruction) : (instruction.linked address behind).IsLinked where
  operands := by
    intro operand hoperand
    obtain ⟨original, -, rfl⟩ := List.mem_map.mp hoperand
    exact ⟨original.value.linked_isLinked address behind, rfl⟩
  span := rfl

/-- Linking leaves the counted lists as they are. -/
theorem countsFit_linked (address : Referent → UInt32) (behind : UInt32)
    (instruction : Instruction) :
    (instruction.linked address behind).CountsFit ↔ instruction.CountsFit := by
  have hvalue (value : OperandValue) :
      (value.linked address behind).CountsFit ↔ value.CountsFit := by
    cases value <;> rfl
  simp only [CountsFit, Instruction.linked, List.forall_mem_map, hvalue]

end Instruction

namespace CodeReader

variable {α β : Type}

/-- Every answer of a reader has a property. -/
def Answers (reader : CodeReader α) (P : α → Prop) : Prop :=
  ∀ state value rest, reader state = .ok (value, rest) → P value

theorem Answers.pure {P : α → Prop} {value : α} (h : P value) : Answers (Pure.pure value) P := by
  rintro state _ _ ⟨⟩
  exact h

theorem Answers.bind {reader : CodeReader α} {next : α → CodeReader β} {P : α → Prop}
    {Q : β → Prop} (h : Answers reader P) (hnext : ∀ value, P value → Answers (next value) Q) :
    Answers (reader >>= next) Q := by
  intro state value rest hrun
  change (reader state >>= fun (a, state) => next a state) = .ok (value, rest) at hrun
  cases hfirst : reader state with
  | error failure =>
      rw [hfirst] at hrun
      cases hrun
  | ok answer =>
      rw [hfirst] at hrun
      exact hnext answer.1 (h state answer.1 answer.2 hfirst) answer.2 value rest hrun

theorem answers_true (reader : CodeReader α) : Answers reader fun _ => True :=
  fun _ _ _ _ => trivial

theorem Answers.behind {reader : CodeReader α} {next : α → CodeReader β} {Q : β → Prop}
    (h : ∀ value, Answers (next value) Q) : Answers (reader >>= next) Q :=
  (answers_true reader).bind fun value _ => h value

theorem answers_fail {P : α → Prop} (problem : DecodeProblem) (offset : Nat) :
    Answers (fail problem offset) P := by
  rintro state _ _ ⟨⟩

theorem collect_length (item : CodeReader α) (count : Nat) (taken : List α) :
    Answers (collect item count taken) fun values => values.length = taken.length + count := by
  induction count generalizing taken with
  | zero => exact Answers.pure (by simp)
  | succ count ih =>
      refine Answers.behind fun value => ?_
      have hmore := ih (value :: taken)
      intro state values rest hrun
      rw [hmore state values rest hrun, List.length_cons]
      omega

/-- A counted reader answers as many items as it is told. -/
theorem many_length (item : CodeReader α) (count : Nat) :
    Answers (many item count) fun values => values.length = count := by
  intro state values rest hrun
  have hlength := collect_length item count [] state values rest hrun
  simpa using hlength

theorem littleEndian_lt (width : Nat) : Answers (littleEndian width) (· < 256 ^ width) := by
  refine Answers.bind (many_length u8 width) fun bytes hbytes => Answers.pure ?_
  rw [← hbytes]
  clear hbytes
  induction bytes with
  | nil => decide
  | cons b rest ih =>
      have hbyte := b.toNat_lt
      simp only [List.foldr_cons, List.length_cons, Nat.pow_succ']
      omega

/-- What is read for a slot fits the count that it was read with. -/
theorem slot_countsFit (place : Slot) : Answers (slot place) OperandValue.CountsFit := by
  cases place with
  | numberList =>
      refine Answers.behind fun count => ?_
      refine Answers.bind (many_length Number.read count.toNat) fun values h => Answers.pure ?_
      have hcount := count.toNat_lt
      simp only [OperandValue.CountsFit]
      omega
  | registerList =>
      refine Answers.behind fun count => ?_
      refine Answers.bind (many_length register count.toNat) fun values h => Answers.pure ?_
      have hcount := count.toNat_lt
      simp only [OperandValue.CountsFit]
      omega
  | paddedTable =>
      refine Answers.bind (littleEndian_lt 2) fun count hcount => ?_
      refine Answers.bind (many_length paddedNumber count) fun values h => Answers.pure ?_
      simp only [OperandValue.CountsFit]
      omega
  | string => exact Answers.behind fun _ => Answers.behind fun _ => Answers.pure trivial
  | bitmask => exact Answers.behind fun _ => Answers.behind fun _ => Answers.pure trivial
  | targetTable => exact Answers.behind fun _ => Answers.behind fun _ => Answers.pure trivial
  | byteList => exact Answers.pure trivial
  | number | register | byte | flag _ _ | messageId | target | expression =>
      exact Answers.behind fun _ => Answers.pure trivial

theorem operands_countFit (slots : List Slot) :
    Answers (operands slots) fun operands => ∀ operand ∈ operands, operand.value.CountsFit := by
  induction slots with
  | nil => exact Answers.pure nofun
  | cons place rest ih =>
      simp only [operands, List.mapM_cons]
      refine Answers.bind ((slot_countsFit place).bind fun value h =>
        Answers.pure (P := fun operand : Operand => operand.value.CountsFit) h)
        fun first hfirst => ?_
      refine Answers.bind ih fun others hothers => Answers.pure ?_
      simpa using ⟨hfirst, hothers⟩

theorem instruction_countsFit : Answers instruction Instruction.CountsFit := by
  refine Answers.behind fun opcode => ?_
  split
  · exact answers_fail _ _
  · split
    · exact answers_fail _ _
    · refine Answers.behind fun subtype => ?_
      exact (operands_countFit _).bind fun operands h => Answers.pure h

end CodeReader

namespace Piece

/-- How many bytes instructions take from an offset on. -/
def widthFrom (offset : Nat) : List Instruction → Nat
  | [] => 0
  | first :: rest =>
      (instruction offset first).size + widthFrom (offset + (instruction offset first).size) rest

theorem widthFrom_append (offset : Nat) (front back : List Instruction) :
    widthFrom offset (front ++ back) =
      widthFrom offset front + widthFrom (offset + widthFrom offset front) back := by
  induction front generalizing offset with
  | nil => simp [widthFrom]
  | cons first rest ih =>
      simp only [List.cons_append, widthFrom, ih, Nat.add_assoc]

theorem size_instructions (offset : Nat) (instructions : List Instruction) :
    (concat ((Piece.instructions offset instructions).map Prod.snd)).size =
      widthFrom offset instructions := by
  induction instructions generalizing offset with
  | nil => rfl
  | cons first rest ih =>
      have hrest := ih (offset + (instruction offset first).size)
      simp only [Piece.instructions, List.map_cons, concat, List.flatMap_cons, size,
        List.length_append, widthFrom] at hrest ⊢
      rw [hrest]

/-- Each instruction is encoded for the offset behind those before it. -/
theorem instructions_getElem? (offset : Nat) (instructions : List Instruction) (index : Nat) :
    (Piece.instructions offset instructions)[index]? =
      instructions[index]?.map fun instruction =>
        (offset + widthFrom offset (instructions.take index),
          Piece.instruction (offset + widthFrom offset (instructions.take index)) instruction) := by
  induction instructions generalizing offset index with
  | nil => rfl
  | cons first rest ih =>
      cases index with
      | zero => rfl
      | succ index =>
          simp only [Piece.instructions, List.getElem?_cons_succ, ih, List.take_succ_cons,
            widthFrom, Nat.add_assoc]

/-- The code of instructions from one of them on begins with the encoding of its linked form. -/
theorem drop_linkedCode (address : Referent → UInt32) (offset : Nat)
    {instructions : List Instruction}
    (h : ∀ instruction ∈ instructions, ∃ form, instruction.OfForm form) {index : Nat}
    {instruction : Instruction} (hinstruction : instructions[index]? = some instruction) :
    let place := offset + widthFrom offset (instructions.take index)
    let behind := offset + widthFrom offset (instructions.take (index + 1))
    ∃ rest, (linkedCode address offset instructions).drop
        (widthFrom offset (instructions.take index)) =
      (Piece.instruction place (instruction.linked address behind.toUInt32)).bytes ++ rest := by
  induction instructions generalizing offset index with
  | nil => cases hinstruction
  | cons first rest ih =>
      cases index with
      | zero =>
          cases hinstruction
          exact ⟨_, rfl⟩
      | succ index =>
          obtain ⟨form, hform⟩ := h first (List.mem_cons_self ..)
          have hlength : (Piece.instruction offset (first.linked address
              (offset + (Piece.instruction offset first).size).toUInt32)).bytes.length =
                (Piece.instruction offset first).size :=
            (fills_instruction hform rfl).length_eq
          obtain ⟨more, hmore⟩ := ih (offset + (Piece.instruction offset first).size)
            (fun other hother => h other (List.mem_cons_of_mem _ hother)) hinstruction
          refine ⟨more, ?_⟩
          simp only [List.take_succ_cons, widthFrom, linkedCode, ← Nat.add_assoc]
          rw [← List.drop_drop, List.drop_left' hlength]
          exact hmore

theorem widthFrom_take_le (offset : Nat) (instructions : List Instruction) (index : Nat) :
    widthFrom offset (instructions.take index) ≤ widthFrom offset instructions := by
  have happend := widthFrom_append offset (instructions.take index) (instructions.drop index)
  rw [List.take_append_drop] at happend
  omega

theorem length_linkedCode {address : Referent → UInt32} {offset : Nat}
    {instructions : List Instruction}
    (h : ∀ instruction ∈ instructions, ∃ form, instruction.OfForm form) :
    (linkedCode address offset instructions).length = widthFrom offset instructions := by
  rw [(fills_instructions h).length_eq, ← size_instructions]
  rfl

end Piece

/-- The recorded offset of an instruction; behind the last one it is the end of the unit. -/
def EncodedUnit.offsetAt (unit : EncodedUnit) (index : Nat) : UInt32 :=
  unit.instructionOffsets[index]?.getD unit.bytes.length.toUInt32

namespace CodeUnit

theorem length_bytes (unit : CodeUnit) :
    unit.encode.bytes.length = Piece.widthFrom 0 unit.instructions :=
  Piece.size_instructions 0 unit.instructions

theorem offsetAt_eq (unit : CodeUnit) {index : Nat} (h : index ≤ unit.instructions.length) :
    unit.encode.offsetAt index =
      (Piece.widthFrom 0 (unit.instructions.take index)).toUInt32 := by
  rw [EncodedUnit.offsetAt, length_bytes]
  simp only [encode, List.getElem?_map, Piece.instructions_getElem?]
  rcases Nat.lt_or_eq_of_le h with hlt | rfl
  · simp [List.getElem?_eq_getElem hlt]
  · simp

end CodeUnit

namespace Routine

/-- Registers that are not preserved yet, and differ from each other, are all added. -/
theorem addRange_of_nodup {span : Span} {preserved registers : List Register}
    (h : (preserved ++ registers).Nodup) :
    addRange span preserved registers = pure (preserved ++ registers) := by
  induction registers generalizing preserved with
  | nil => rw [List.append_nil]; rfl
  | cons register rest ih =>
      have hnew : preserved.contains register = false := by
        rw [List.nodup_append'] at h
        simpa using fun hmem => h.2.2 hmem (List.mem_cons_self ..)
      rw [addRange, hnew, if_neg Bool.false_ne_true, ih (by rwa [← List.append_cons]),
        ← List.append_cons]

theorem nodup_valueRange (first last : Nat) : (valueRange first last).Nodup := by
  refine List.Nodup.filterMap (fun index other register hindex hother => ?_) List.nodup_range'
  simp only [Register.value?, Option.mem_def, Option.dite_none_right_eq_some] at hindex hother
  obtain ⟨hlt, hindex⟩ := hindex
  obtain ⟨hlt', hother⟩ := hother
  cases Option.some.inj (Eq.trans hindex hother.symm)
  rfl

/-- The one range of a function that preserves nothing else. -/
theorem preserve_range {scope : Scope} {range : SyntaxTree} {token stop : Token}
    (htokens : registerTokens range = [token, stop]) {first last : Fin 4096}
    (hfirst : registerNamed? scope [] token.text = some (.value first))
    (hlast : registerNamed? scope [] stop.text = some (.value last)) (hle : first ≤ last) :
    preserve scope [] [] range = pure (valueRange first last) := by
  have hend {token : Token} {index : Fin 4096}
      (h : registerNamed? scope [] token.text = some (.value index)) :
      preservedEnd? scope [] token = pure (some (.value index)) := by
    simp only [preservedEnd?, h]
    rfl
  have hnot : ¬ (Register.value last).index < (Register.value first).index := Nat.not_lt.mpr hle
  simp only [preserve, htokens, hend hfirst, hend hlast, List.getLast?_singleton, pure_bind,
    if_neg hnot]
  exact addRange_of_nodup (nodup_valueRange _ _)

theorem readBody_of_kinds {scope : Scope} {aliases : Aliases} {trees : List SyntaxTree}
    (h : ∀ tree ∈ trees, tree.kind? ≠ some .label ∧ tree.kind? ≠ some .instruction) :
    readBody scope aliases trees = pure [] := by
  induction trees with
  | nil => rfl
  | cons tree rest ih =>
      obtain ⟨hfirst, hrest⟩ := List.forall_mem_cons.mp h
      rw [readBody]
      split
      · exact absurd ‹_› hfirst.1
      · exact absurd ‹_› hfirst.2
      · exact ih hrest

end Routine

namespace LinkedProgram

/-- Where a unit of a program begins, counted from the beginning of the code. -/
def unitStart (units : List CodeUnit) (position : Nat) : Nat :=
  ((units.take position).map fun unit => unit.encode.bytes.length).sum

/-- An instruction stands in the code of a program as its linked form: at its recorded offset in
the unit that begins at `start`, and up to the next offset. -/
def DecodesBack (program : LinkedProgram) (start : Nat) (unit : EncodedUnit) (index : Nat)
    (instruction : Instruction) : Prop :=
  let address := addressIn program.symbols (program.base.toNat + start)
  let offset := unit.offsetAt index
  let behind := unit.offsetAt (index + 1)
  DecodedInstruction.readAt program.code (start + offset.toNat) =
    .ok ⟨instruction.linked address behind, behind.toNat - offset.toNat⟩

theorem link_base (base : UInt32) (externals : List (Bytes × UInt32)) (units : List PlacedUnit) :
    (link base externals units).base = base := by
  simp only [link]
  split <;> rfl

section Units

variable {α : Type} (place : α → PlacedUnit)

/-- The code of units from one of them on begins with the code of that one. -/
theorem drop_codesFrom {linked : Nat → α → Bytes} {units : List α}
    (hlength : ∀ start, ∀ unit ∈ units,
      (linked start unit).length = (place unit).unit.bytes.length)
    (cursor : Nat) {position : Nat} {unit : α} (h : units[position]? = some unit) :
    let start := ((units.take position).map fun unit => (place unit).unit.bytes.length).sum
    ∃ tail, (codesFrom place linked cursor units).drop start =
      linked (cursor + start) unit ++ tail := by
  induction units generalizing cursor position with
  | nil => cases h
  | cons first rest ih =>
      have hfirst := hlength cursor first (List.mem_cons_self ..)
      cases position with
      | zero =>
          cases h
          exact ⟨_, rfl⟩
      | succ position =>
          obtain ⟨tail, htail⟩ := ih
            (fun start unit hunit => hlength start unit (List.mem_cons_of_mem _ hunit))
            (cursor + (place first).unit.bytes.length) h
          refine ⟨tail, ?_⟩
          rw [List.take_succ_cons, List.map_cons, List.sum_cons, codesFrom, ← hfirst,
            List.drop_length_add_append, hfirst, htail, Nat.add_assoc]

end Units

/-- A block that begins with an instruction of the table is read as that instruction exactly if its
lists fit their counts. -/
theorem read_linked_iff {instruction : Instruction} {form : Form} (hform : instruction.OfForm form)
    (hraw : instruction.opcode ≠ .rawData) (address : Referent → UInt32) (behind : UInt32)
    (offset : Nat) (h : (Piece.instruction offset instruction).diagnostics.hasErrors = false)
    (tail : Bytes) :
    let linked := instruction.linked address behind
    let bytes := (Piece.instruction offset linked).bytes
    DecodedInstruction.read (bytes ++ tail) = .ok ⟨linked, bytes.length⟩ ↔
      instruction.CountsFit := by
  intro linked bytes
  rw [← Instruction.countsFit_linked address behind]
  constructor
  · intro hread
    simp only [DecodedInstruction.read] at hread
    split at hread
    · rename_i answer state hrun
      injection hread with hdecoded
      injection hdecoded with hanswer hsize
      have hfit := CodeReader.instruction_countsFit _ _ _ hrun
      rwa [hanswer] at hfit
    · cases hread
  · intro hfit
    have hread := CodeReader.reads_instruction offset (hform.linked address behind)
      (Instruction.linked_isLinked address behind instruction) hfit hraw
      (by rw [Piece.hasErrors_instruction]; exact h) 0 tail
    simp only [DecodedInstruction.read, StateT.run]
    rw [hread]
    simp [bytes, linked]

theorem unitStart_add_le {units : List CodeUnit} {position : Nat} {unit : CodeUnit}
    (h : units[position]? = some unit) :
    unitStart units position + unit.encode.bytes.length ≤
      (units.map fun unit => unit.encode.bytes.length).sum := by
  induction units generalizing position with
  | nil => cases h
  | cons first rest ih =>
      cases position with
      | zero =>
          cases h
          simp [unitStart]
      | succ position =>
          have hrest := ih h
          simp only [unitStart, List.take_succ_cons, List.map_cons, List.sum_cons] at hrest ⊢
          omega

theorem toNat_of_le_addressLimit {value : Nat} (h : value ≤ addressLimit) :
    value.toUInt32.toNat = value := by
  apply UInt32.toNat_ofNat_of_lt'
  simp only [addressLimit] at h
  simp only [UInt32.size]
  omega

theorem readAt_eq_ok {code : Bytes} {offset : Nat} {decoded : DecodedInstruction} :
    DecodedInstruction.readAt code offset = .ok decoded ↔
      DecodedInstruction.read (code.drop offset) = .ok decoded := by
  simp only [DecodedInstruction.readAt]
  cases DecodedInstruction.read (code.drop offset) with
  | ok found => rfl
  | error failure => exact ⟨nofun, nofun⟩

section Code

variable {base : UInt32} {units : List CodeUnit}
  (hformed : ∀ unit ∈ units, Routine.AllFormed unit.instructions)
  (hsucceeded : (ofUnits base units).succeeded = true)

include hformed hsucceeded

/-- What holds of each unit of a linked program: it had no errors and ends below the limit, and
the code from its start on begins with its linked instructions. -/
theorem unit_linked {position : Nat} {unit : CodeUnit} (hunit : units[position]? = some unit) :
    let start := unitStart units position
    let address := addressIn (ofUnits base units).symbols (base.toNat + start)
    start + unit.encode.bytes.length ≤ addressLimit ∧ unit.encode.diagnostics.hasErrors = false ∧
    ∃ tail, (ofUnits base units).code.drop start =
      Piece.linkedCode address 0 unit.instructions ++ tail := by
  let place (unit : CodeUnit) : PlacedUnit := ⟨unit.encode, .origin⟩
  let symbols := definedSymbols place base.toNat .empty units
  let linked (start : Nat) (unit : CodeUnit) : Bytes :=
    Piece.linkedCode (addressIn symbols start) 0 unit.instructions
  have hfills (start : Nat) (unit : CodeUnit) (hunit : unit ∈ units) : Piece.Fills
      (addressIn symbols start) 0 (place unit).unit.piece (linked start unit) :=
    Piece.fills_instructions (hformed unit hunit)
  obtain ⟨hcode, hsymbols, -, hend, -, herrors⟩ := link_eq place hsucceeded rfl hfills
  have hsymbols : (ofUnits base units).symbols = symbols := hsymbols
  have hcode : (ofUnits base units).code = codesFrom place linked base.toNat units := hcode
  have hlength (start : Nat) (unit : CodeUnit) (hunit : unit ∈ units) :
      (linked start unit).length = (place unit).unit.bytes.length := by
    rw [Piece.length_linkedCode (hformed unit hunit)]
    exact (CodeUnit.length_bytes unit).symm
  obtain ⟨tail, htail⟩ := drop_codesFrom place hlength base.toNat hunit
  have hsum := unitStart_add_le hunit
  refine ⟨?_, herrors unit (List.mem_of_getElem? hunit), tail, ?_⟩
  · simp only [place] at hend
    omega
  · rw [hcode, hsymbols]
    exact htail

theorem decodesBack_iff_of_formed {position index : Nat} {unit : CodeUnit}
    {instruction : Instruction} (hunit : units[position]? = some unit)
    (hinstruction : unit.instructions[index]? = some instruction)
    (hraw : instruction.opcode ≠ .rawData) :
    (ofUnits base units).DecodesBack (unitStart units position) unit.encode index instruction ↔
      instruction.CountsFit := by
  obtain ⟨hlimit, hnoErrors, tail, htail⟩ := unit_linked hformed hsucceeded hunit
  have hunitFormed := hformed unit (List.mem_of_getElem? hunit)
  obtain ⟨form, hform⟩ := hunitFormed instruction (List.mem_of_getElem? hinstruction)
  obtain ⟨hindex, -⟩ := List.getElem?_eq_some_iff.mp hinstruction
  have hbase : (ofUnits base units).base = base := link_base base [] _
  obtain ⟨rest, hrest⟩ := Piece.drop_linkedCode
    (addressIn (ofUnits base units).symbols (base.toNat + unitStart units position)) 0
    hunitFormed hinstruction
  simp only [Nat.zero_add] at hrest
  have hoffset := unit.offsetAt_eq (Nat.le_of_lt hindex)
  have hbehind := unit.offsetAt_eq (Nat.succ_le_of_lt hindex)
  have hwidth : Piece.widthFrom 0 (unit.instructions.take (index + 1)) =
      Piece.widthFrom 0 (unit.instructions.take index) +
        (Piece.instruction (Piece.widthFrom 0 (unit.instructions.take index))
          instruction).size := by
    rw [List.take_add_one, hinstruction, Piece.widthFrom_append]
    simp [Piece.widthFrom]
  have hle := Piece.widthFrom_take_le 0 unit.instructions index
  have hle' := Piece.widthFrom_take_le 0 unit.instructions (index + 1)
  rw [← CodeUnit.length_bytes] at hle hle'
  have hpiece : (Piece.instruction (Piece.widthFrom 0 (unit.instructions.take index))
      instruction).diagnostics.hasErrors = false := by
    apply Piece.diagnostics_of_mem hnoErrors
    refine List.mem_map.mpr ⟨(Piece.widthFrom 0 (unit.instructions.take index), _), ?_, rfl⟩
    apply List.mem_of_getElem?
    rw [Piece.instructions_getElem?, hinstruction, Nat.zero_add]
    rfl
  have hle'' : Piece.widthFrom 0 (unit.instructions.take index) ≤
      (Piece.linkedCode (addressIn (ofUnits base units).symbols
        (base.toNat + unitStart units position)) 0 unit.instructions).length := by
    rw [Piece.length_linkedCode hunitFormed, ← CodeUnit.length_bytes]
    exact hle
  generalize Piece.widthFrom 0 (unit.instructions.take index) = offset at *
  generalize Piece.widthFrom 0 (unit.instructions.take (index + 1)) = behind at *
  have hoffsetNat : offset.toUInt32.toNat = offset := toNat_of_le_addressLimit (by omega)
  have hbehindNat : behind.toUInt32.toNat = behind := toNat_of_le_addressLimit (by omega)
  have hsize : (Piece.instruction offset (instruction.linked (addressIn (ofUnits base units).symbols
      (base.toNat + unitStart units position)) behind.toUInt32)).bytes.length =
        behind - offset := by
    rw [(Piece.fills_instruction hform (by rw [hwidth])).length_eq, hwidth, Nat.add_sub_cancel_left]
    rfl
  simp only [DecodesBack, hbase, hoffset, hbehind, hoffsetNat, hbehindNat]
  rw [readAt_eq_ok, ← List.drop_drop, htail, List.drop_append_of_le_length hle'', hrest,
    List.append_assoc, ← hsize]
  exact read_linked_iff hform hraw _ _ offset hpiece (rest ++ tail)

end Code

/-- What a source assembles to is read back: if linking reports no error, then an instruction
other than raw data stands at its recorded offset with its opcode, its type byte and its
operands, places replaced by their addresses and a case table by its dense form, and ends at
the next offset, exactly if its lists fit the fields that count them. -/
theorem decodesBack_iff {base : UInt32} {source : Bytes}
    (hsucceeded : (ofUnits base (Listing.ofSource source).units).succeeded = true)
    {position index : Nat} {unit : CodeUnit} {instruction : Instruction}
    (hunit : (Listing.ofSource source).units[position]? = some unit)
    (hinstruction : unit.instructions[index]? = some instruction)
    (hraw : instruction.opcode ≠ .rawData) :
    (ofUnits base (Listing.ofSource source).units).DecodesBack
        (unitStart (Listing.ofSource source).units position) unit.encode index instruction ↔
      instruction.CountsFit := by
  apply decodesBack_iff_of_formed _ hsucceeded hunit hinstruction hraw
  intro unit hunit
  obtain ⟨lowered, hlowered, rfl⟩ := List.mem_map.mp hunit
  obtain ⟨routine, -, rfl⟩ := List.mem_map.mp hlowered
  exact routine.lower_formed

/-- The registers that a function saves are one list, which fits its count here. -/
theorem decodesBack_saved_registers :
    let source := ascii "function F(), $v0-$v3\nendfun\n"
    let units := (Listing.ofSource source).units
    (ofUnits 0 units).succeeded = true ∧
      ∃ unit ∈ units[0]?, ∃ instruction ∈ unit.instructions[0]?,
        instruction.opcode ≠ .rawData ∧ instruction.CountsFit ∧
        (ofUnits 0 units).DecodesBack (unitStart units 0) unit.encode 0 instruction := by
  intro source units
  have hsucceeded : (ofUnits 0 units).succeeded = true := by decide +kernel
  obtain ⟨unit, hunit, instruction, hinstruction, hraw, hfit⟩ :
      ∃ unit ∈ units[0]?, ∃ instruction ∈ unit.instructions[0]?,
        instruction.opcode ≠ .rawData ∧ instruction.CountsFit := by decide +kernel
  exact ⟨hsucceeded, unit, hunit, instruction, hinstruction, hraw, hfit,
    (decodesBack_iff hsucceeded hunit hinstruction hraw).mpr hfit⟩

instance (program : LinkedProgram) (start : Nat) (unit : EncodedUnit) (index : Nat)
    (instruction : Instruction) : Decidable (program.DecodesBack start unit index instruction) :=
  inferInstanceAs (Decidable (_ = _))

/-- A function that preserves some registers and does nothing else. -/
def savingRoutine (preserved : List Register) (span : Span) : Routine :=
  ⟨.function, ascii "F", 0, preserved, [], span⟩

/-- Whether the tree of a function is such a function, with one range of registers. -/
def isSaving (first last : Bytes) (span : Span) (tree : SyntaxTree) : Bool :=
  Routine.nameOf tree == ascii "F" &&
    ((tree.firstChild? .parameterList).map Routine.registerTokens).getD [] == [] &&
    ((tree.firstChild? .preservedRangeList).map fun list =>
      list.childNodes.map fun range => (Routine.registerTokens range).map Token.text) ==
        some [[first, last]] &&
    tree.children.all (fun child => child.kind? != some .label &&
      child.kind? != some .instruction) &&
    tree.span == span

/-- A source that consists of such a function is read as its routine alone. -/
theorem resolve_saving {scope : Scope} {tree function lineEnd behind : SyntaxTree} {span : Span}
    (hchildren : tree.children = [function, lineEnd, behind]) {start stop : Bytes}
    (hkind : function.kind? = some .functionDefinition)
    (hfunction : isSaving start stop span function = true) (hlineEnd : lineEnd.kind? = none)
    (hbehind : behind.kind? = none) {first last : Fin 4096}
    (hfirst : Routine.registerNamed? scope [] start = some (.value first))
    (hlast : Routine.registerNamed? scope [] stop = some (.value last)) (hle : first ≤ last) :
    Routine.resolve scope tree = ([savingRoutine (Routine.valueRange first last) span], []) := by
  simp only [isSaving, Bool.and_eq_true, beq_iff_eq, List.all_eq_true, bne_iff_ne] at hfunction
  obtain ⟨⟨⟨⟨hname, hparameters⟩, hranges⟩, hbody⟩, rfl⟩ := hfunction
  obtain ⟨list, hlist, hranges⟩ := Option.map_eq_some_iff.mp hranges
  obtain ⟨range, hnodes, hrange⟩ := List.map_eq_singleton_iff.mp hranges
  obtain ⟨token, others, htokens, rfl, hothers⟩ := List.map_eq_cons_iff.mp hrange
  obtain ⟨token, rfl, rfl⟩ := List.map_eq_singleton_iff.mp hothers
  have hread : Routine.readProcedure scope .function function =
      pure (savingRoutine (Routine.valueRange first last) function.span) := by
    simp only [Routine.readProcedure, hparameters, Routine.bindParameters, pure_bind, hlist,
      Option.map_some, Option.getD_some, hnodes, List.foldlM_cons, List.foldlM_nil,
      Routine.preserve_range htokens hfirst hlast hle, Routine.readBody_of_kinds hbody, hname]
    rfl
  simp only [Routine.resolve, hchildren, Routine.readItems, hkind, hlineEnd, hbehind, hread,
    pure_bind]
  rfl
/-- A source that is read as one routine, without a complaint, is listed as its code. -/
theorem ofSource_of_resolve {source : Bytes} {scope : Scope} {routine : Routine} {unit : CodeUnit}
    (hclean : (ParsedSource.read source .origin).diagnostics = [])
    (hdeclared : Declarations.collect [⟨(ParsedSource.read source .origin).tree, .origin⟩] =
      (scope, []))
    (hresolved : Routine.resolve scope (ParsedSource.read source .origin).tree = ([routine], []))
    (hlower : routine.lower = (unit, [])) : Listing.ofSource source = ⟨[unit], []⟩ := by
  have hsorted : Diagnostics.sortByPlace [] = [] := List.mergeSort_nil
  simp only [Listing.ofSource, hclean, hdeclared, hresolved, List.map_cons, List.map_nil, hlower]
  exact congrArg (Listing.mk [unit]) hsorted

/-- A function can preserve more registers than a count of one byte can tell. It assembles without
a diagnostic, and its first instruction is written with the count zero. -/
theorem not_decodesBack_of_many_registers :
    let source := ascii "function F(), $v0-$v255\nendfun\n"
    let units := (Listing.ofSource source).units
    (Listing.ofSource source).diagnostics = [] ∧ (ofUnits 0 units).diagnostics = [] ∧
      ∃ unit ∈ units[0]?, ∃ instruction ∈ unit.instructions[0]?,
        instruction.opcode ≠ .rawData ∧
        ¬ (ofUnits 0 units).DecodesBack (unitStart units 0) unit.encode 0 instruction := by
  intro source units
  let routine := savingRoutine (Routine.valueRange 0 255) ⟨⟨1, 1, 0⟩, ⟨2, 7, 30⟩⟩
  let scope : Scope :=
    ⟨[⟨ascii "F", .function, 0, ⟨⟨1, 10, 9⟩, ⟨1, 11, 10⟩⟩⟩], .empty, .empty⟩
  obtain ⟨hkinds, hshape, hclean, hdeclared⟩ :
      (ParsedSource.read source .origin).tree.children.map SyntaxTree.kind? =
        [some .functionDefinition, none, none] ∧
      (ParsedSource.read source .origin).tree.children.head?.all
        (isSaving (ascii "$v0") (ascii "$v255") routine.span) = true ∧
      (ParsedSource.read source .origin).diagnostics = [] ∧
      Declarations.collect [⟨(ParsedSource.read source .origin).tree, .origin⟩] =
        (scope, []) := by
    decide +kernel
  -- The registers of a wide range are compared with each other when they are added, so the
  -- routine is not computed from the source but read off its tree.
  have hlisting : Listing.ofSource source = ⟨[routine.lower.1], []⟩ := by
    obtain ⟨function, others, hchildren, hkind, hothers⟩ := List.map_eq_cons_iff.mp hkinds
    obtain ⟨lineEnd, others, rfl, hlineEnd, hothers⟩ := List.map_eq_cons_iff.mp hothers
    obtain ⟨behind, rfl, hbehind⟩ := List.map_eq_singleton_iff.mp hothers
    rw [hchildren] at hshape
    have hfirst : Routine.registerNamed? scope [] (ascii "$v0") = some (.value 0) := by
      decide +kernel
    have hlast : Routine.registerNamed? scope [] (ascii "$v255") = some (.value 255) := by
      decide +kernel
    exact ofSource_of_resolve hclean hdeclared
      (resolve_saving hchildren hkind hshape hlineEnd hbehind hfirst hlast (by decide)) rfl
  have hunits : units = [routine.lower.1] := congrArg Listing.units hlisting
  obtain ⟨hlinked, unit, hunit, instruction, hinstruction, hraw, hmany⟩ :
      (ofUnits 0 units).diagnostics = [] ∧ ∃ unit ∈ units[0]?,
        ∃ instruction ∈ unit.instructions[0]?,
          instruction.opcode ≠ .rawData ∧ ¬ instruction.CountsFit := by
    rw [hunits]
    decide +kernel
  have hsucceeded : (ofUnits 0 units).succeeded = true := by
    rw [succeeded, hlinked]
    rfl
  exact ⟨congrArg Listing.diagnostics hlisting, hlinked, unit, hunit, instruction, hinstruction,
    hraw, fun hback => hmany ((decodesBack_iff hsucceeded hunit hinstruction hraw).mp hback)⟩

end LinkedProgram

end NovelAsm
