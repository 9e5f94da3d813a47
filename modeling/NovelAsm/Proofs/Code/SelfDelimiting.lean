import NovelAsm.Proofs.Code.Codec
import NovelAsm.Proofs.Erasure.Code

/-!
An instruction ends where its bytes end. Once its places are addresses and every number, text,
list and table of it fits its field, an instruction is written with nothing to report, and a
decoder that is given those bytes and anything behind them answers the instruction and its
size (`read_encode`).

What has to fit is a matter of each operand alone (`OperandValue.IsEncodable`). That the pieces
of code report nothing is shown piece by piece; that they are read back is the codec's.
-/

namespace NovelAsm

def Term.number? : Term → Option Number
  | .push value => some value
  | .apply _ => none

namespace OperandValue

/-- The numbers that an operand writes. -/
def numbers : OperandValue → List Number
  | .number value => [value]
  | .numberList values | .bitmask values | .paddedTable values => values
  | .expression terms => terms.filterMap Term.number?
  | _ => []

/-- The text of an operand can be stored, and its table jump has the keys from zero on. -/
def BodyFits : OperandValue → Prop
  | .string text => text.length ≤ Piece.stringLimit
  | .targetTable keys destinations =>
      destinations.length ≤ 0xffff ∧ keys = (List.range destinations.length).map Int32.ofNat
  | _ => True

/-- An operand can be written whatever its places are: its numbers have forms, and its text or
table fits its fields. -/
structure IsStorable (value : OperandValue) : Prop where
  numbers : ∀ number ∈ value.numbers, number.encode?.isSome
  body : value.BodyFits

/-- An operand fits the code: its numbers have forms, its places are addresses, and its lists,
texts and tables fit their fields. -/
structure IsEncodable (value : OperandValue) : Prop where
  numbers : ∀ number ∈ value.numbers, number.encode?.isSome
  places : ∀ destination ∈ value.targets, ∃ address, destination.place = .address address
  counts : value.CountsFit
  body : value.BodyFits

theorem IsEncodable.isStorable {value : OperandValue} (h : value.IsEncodable) : value.IsStorable :=
  ⟨h.numbers, h.body⟩

end OperandValue

/-- An instruction of a row of the table, other than raw data, whose operands fit the code. -/
structure Instruction.IsEncodable (instruction : Instruction) (form : Form) : Prop where
  form : instruction.OfForm form
  opcode : instruction.opcode ≠ .rawData
  operands : ∀ operand ∈ instruction.operands, operand.value.IsEncodable

namespace Piece

variable {span : Span}

theorem number_diagnostics {value : Number} (h : value.encode?.isSome) :
    (number span value).diagnostics = [] := by
  obtain ⟨bytes, hbytes⟩ := Option.isSome_iff_exists.mp h
  rw [number, hbytes]
  rfl

theorem concat_diagnostics {pieces : List Piece} (h : ∀ piece ∈ pieces, piece.diagnostics = []) :
    (concat pieces).diagnostics = [] :=
  List.flatMap_eq_nil_iff.mpr h

theorem concat_numbers_diagnostics {values : List Number}
    (h : ∀ value ∈ values, value.encode?.isSome) :
    (concat (values.map (number span))).diagnostics = [] := by
  apply concat_diagnostics
  intro piece hpiece
  obtain ⟨value, hvalue, rfl⟩ := List.mem_map.mp hpiece
  exact number_diagnostics (h value hvalue)

theorem concat_padded_diagnostics {values : List Number}
    (h : ∀ value ∈ values, value.encode?.isSome) :
    (concat (values.map (paddedNumber span))).diagnostics = [] := by
  apply concat_diagnostics
  intro piece hpiece
  obtain ⟨value, hvalue, rfl⟩ := List.mem_map.mp hpiece
  simp only [paddedNumber, diagnostics_append, number_diagnostics (h value hvalue)]
  rfl

theorem concat_terms_diagnostics {terms : List Term}
    (h : ∀ value ∈ terms.filterMap Term.number?, value.encode?.isSome) :
    (concat (terms.map (term span))).diagnostics = [] := by
  apply concat_diagnostics
  intro piece hpiece
  obtain ⟨value, hvalue, rfl⟩ := List.mem_map.mp hpiece
  cases value with
  | apply operator => rfl
  | push value =>
      have hmem : value ∈ terms.filterMap Term.number? :=
        List.mem_filterMap.mpr ⟨.push value, hvalue, rfl⟩
      simp only [term, diagnostics_append, number_diagnostics (h value hmem)]
      rfl

theorem bitmask_diagnostics {slots : List Number} (h : ∀ value ∈ slots, value.encode?.isSome) :
    (bitmask span slots).diagnostics = [] := by
  have hused : ∀ value ∈ (slots.take Instruction.bitmaskSlots).filter (· != .constant 0),
      value.encode?.isSome := by
    intro value hvalue
    exact h value (List.mem_of_mem_take (List.mem_filter.mp hvalue).1)
  simp only [bitmask, diagnostics_append, concat_numbers_diagnostics hused]
  rfl

theorem target_diagnostics (offset : Nat) (destination : CodeTarget) :
    (target offset destination).diagnostics = [] := by
  simp only [target]
  split <;> rfl

theorem targets_diagnostics (offset : Nat) (destinations : List CodeTarget) :
    (targets offset destinations).diagnostics = [] := by
  apply concat_diagnostics
  intro piece hpiece
  obtain ⟨entry, _, rfl⟩ := List.mem_map.mp hpiece
  exact target_diagnostics _ _

/-- Cases of which no two share a key, and none one that was seen, raise no warning. -/
theorem repeatedCases_eq_nil {seen : List Int32} {cases : List (Int32 × CodeTarget)}
    (hseen : ∀ entry ∈ cases, entry.1 ∉ seen) (hkeys : (cases.map Prod.fst).Nodup) :
    repeatedCases seen cases = [] := by
  induction cases generalizing seen with
  | nil => rfl
  | cons entry rest ih =>
      obtain ⟨key, destination⟩ := entry
      rw [List.map_cons, List.nodup_cons] at hkeys
      have hnew : ¬ seen.contains key = true := by
        simpa using hseen (key, destination) (List.mem_cons_self ..)
      rw [repeatedCases, if_neg hnew]
      refine ih ?_ hkeys.2
      intro other hother
      rw [List.mem_cons, not_or]
      constructor
      · intro heq
        exact hkeys.1 (List.mem_map.mpr ⟨other, hother, heq⟩)
      · exact hseen other (List.mem_cons_of_mem _ hother)

theorem nodup_range_keys {count : Nat} (h : count ≤ 0xffff) :
    ((List.range count).map Int32.ofNat).Nodup := by
  refine List.Nodup.map_on ?_ List.nodup_range
  intro a ha b hb heq
  have hvalues := congrArg Int32.toInt heq
  rw [List.mem_range] at ha hb
  rw [toInt_ofNat (by omega), toInt_ofNat (by omega)] at hvalues
  omega

theorem targetTable_diagnostics (offset : Nat) {destinations : List CodeTarget}
    (h : destinations.length ≤ 0xffff) :
    (targetTable offset span
      (((List.range destinations.length).map Int32.ofNat).zip destinations)).diagnostics = [] := by
  refine repeatedCases_eq_nil (fun _ _ => List.not_mem_nil) ?_
  rw [List.map_fst_zip (by simp)]
  exact nodup_range_keys h

/-- The piece of an operand that can be written reports nothing. -/
theorem operand_diagnostics (offset : Nat) {value : Operand} (h : value.value.IsStorable) :
    (operand offset value).diagnostics = [] := by
  obtain ⟨value, span⟩ := value
  obtain ⟨hnumbers, hbody⟩ := h
  cases value with
  | number value => exact number_diagnostics (hnumbers value (List.mem_singleton_self _))
  | register _ | byte _ | flag _ | messageId _ | registerList _ | byteList _ => rfl
  | string text =>
      simp only [operand, string]
      rw [if_neg (Nat.not_lt.mpr hbody)]
      rfl
  | numberList values => exact concat_numbers_diagnostics hnumbers
  | bitmask slots => exact bitmask_diagnostics hnumbers
  | target destinations => exact targets_diagnostics offset destinations
  | targetTable keys destinations =>
      obtain ⟨hlength, rfl⟩ := hbody
      exact targetTable_diagnostics offset hlength
  | paddedTable values => exact concat_padded_diagnostics hnumbers
  | expression terms =>
      simp only [operand, diagnostics_append, concat_terms_diagnostics hnumbers]
      rfl

theorem operands_diagnostics (offset : Nat) {values : List Operand}
    (h : ∀ value ∈ values, value.value.IsStorable) :
    (operands offset values).diagnostics = [] := by
  induction values generalizing offset with
  | nil => rfl
  | cons first rest ih =>
      simp only [operands, diagnostics_append,
        operand_diagnostics offset (h first (List.mem_cons_self ..)),
        ih _ fun value hvalue => h value (List.mem_cons_of_mem _ hvalue)]
      rfl

/-- The table has no row for the operation that is known and not assembled. -/
theorem ofOpcode?_select : ∀ form ∈ Form.table, form.opcode ≠ .select := by
  decide +kernel

theorem instruction_diagnostics (offset : Nat) {value : Instruction} {form : Form}
    (hform : value.OfForm form) (h : ∀ operand ∈ value.operands, operand.value.IsStorable) :
    (instruction offset value).diagnostics = [] := by
  obtain ⟨hmem, hopcode⟩ := Form.of_ofOpcode? hform.row
  have hselect : ¬ (value.opcode == .select) = true := by
    rw [beq_iff_eq, ← hopcode]
    exact ofOpcode?_select form hmem
  have hhead : (head form value).diagnostics = [] := by
    simp only [head, diagnostics_append]
    split <;> split <;> rfl
  simp only [instruction, hform.row, if_neg hselect, diagnostics_append, hhead,
    operands_diagnostics _ h]
  rfl

end Piece

namespace Slot

/-- What a slot asks of an operand does not depend on the places that it names. -/
theorem Holds.mapTargets {place : Slot} {value : OperandValue} (h : place.Holds value)
    (change : CodeTarget → CodeTarget) : place.Holds (value.mapTargets change) := by
  cases place <;> cases value <;> try exact h
  case target.target destinations =>
      simpa only [OperandValue.mapTargets, Holds, List.length_map] using h
  case targetTable.targetTable keys destinations =>
      simpa only [OperandValue.mapTargets, Holds, List.length_map] using h

end Slot

namespace OperandValue

theorem bare_isLinked {destination : CodeTarget}
    (h : ∃ address, destination.place = .address address) : destination.bare.IsLinked := by
  obtain ⟨address, haddress⟩ := h
  exact ⟨address, by rw [CodeTarget.bare, haddress]⟩

theorem map_bare_isLinked {destinations : List CodeTarget}
    (h : ∀ destination ∈ destinations, ∃ address, destination.place = .address address) :
    ∀ destination ∈ destinations.map CodeTarget.bare, destination.IsLinked := by
  intro destination hdestination
  obtain ⟨original, horiginal, rfl⟩ := List.mem_map.mp hdestination
  exact bare_isLinked (h original horiginal)

/-- An operand that fits the code is one of the machine when its spans are taken away. -/
theorem IsEncodable.isLinked {value : OperandValue} (h : value.IsEncodable) :
    (value.mapTargets CodeTarget.bare).IsLinked := by
  cases value with
  | target destinations => exact map_bare_isLinked h.places
  | targetTable keys destinations =>
      obtain ⟨_, rfl⟩ := h.body
      constructor
      · exact map_bare_isLinked h.places
      · rw [List.length_map]
  | number _ | register _ | byte _ | flag _ | messageId _ | string _ | numberList _
  | registerList _ | bitmask _ | paddedTable _ | expression _ | byteList _ => trivial

theorem IsEncodable.countsFit {value : OperandValue} (h : value.IsEncodable) :
    (value.mapTargets CodeTarget.bare).CountsFit := by
  cases value with
  | target _ | targetTable _ _ => trivial
  | number _ | register _ | byte _ | flag _ | messageId _ | string _ | numberList _
  | registerList _ | bitmask _ | paddedTable _ | expression _ | byteList _ => exact h.counts

end OperandValue

namespace Instruction

variable {instruction : Instruction} {form : Form}

/-- An instruction that fits the code is written with nothing to report. -/
theorem IsEncodable.diagnostics (h : instruction.IsEncodable form) (offset : Nat) :
    (Piece.instruction offset instruction).diagnostics = [] :=
  Piece.instruction_diagnostics offset h.form fun operand hoperand =>
    (h.operands operand hoperand).isStorable

theorem OfForm.bare (h : instruction.OfForm form) : instruction.bare.OfForm form where
  row := h.row
  subtype := h.subtype
  operands := by
    simp only [Instruction.bare, List.forall₂_map_right_iff]
    exact h.operands.imp fun _ _ hholds => hholds.mapTargets CodeTarget.bare

theorem IsEncodable.isLinked (h : instruction.IsEncodable form) : instruction.bare.IsLinked where
  operands := by
    intro operand hoperand
    obtain ⟨original, horiginal, rfl⟩ := List.mem_map.mp hoperand
    exact ⟨(h.operands original horiginal).isLinked, rfl⟩
  span := rfl

theorem IsEncodable.countsFit (h : instruction.IsEncodable form) : instruction.bare.CountsFit := by
  intro operand hoperand
  obtain ⟨original, horiginal, rfl⟩ := List.mem_map.mp hoperand
  exact (h.operands original horiginal).countsFit

/-- An instruction that fits the code is read back from its bytes, without its spans. -/
theorem IsEncodable.reads (h : instruction.IsEncodable form) (offset : Nat) :
    CodeReader.Reads CodeReader.instruction (Piece.instruction offset instruction).bytes
      instruction.bare := by
  have hbare := Piece.instruction_bare offset instruction
  have hclean : (Piece.instruction offset instruction.bare).diagnostics.hasErrors = false := by
    rw [← hbare, Piece.bare, h.diagnostics offset]
    rfl
  have hread := CodeReader.reads_instruction offset h.form.bare h.isLinked h.countsFit h.opcode
    hclean
  rwa [← hbare, Piece.bytes_bare] at hread

end Instruction

/-- An instruction that fits the code, alone in a unit, is written with nothing to report; and
whatever stands behind its bytes, decoding them answers the instruction, without its spans, and
the number of its bytes. -/
theorem DecodedInstruction.read_encode {instruction : Instruction} {form : Form}
    (h : instruction.IsEncodable form) {unit : CodeUnit}
    (hunit : unit.instructions = [instruction]) :
    unit.encode.diagnostics = [] ∧
      ∀ suffix, read (unit.encode.bytes ++ suffix) =
        .ok ⟨instruction.bare, unit.encode.bytes.length⟩ := by
  have hpieces : unit.encode.bytes = (Piece.instruction 0 instruction).bytes ∧
      unit.encode.diagnostics = (Piece.instruction 0 instruction).diagnostics := by
    simp only [CodeUnit.encode, hunit, Piece.instructions, Piece.concat, List.map_cons,
      List.map_nil, List.flatMap_cons, List.flatMap_nil, List.append_nil, and_self]
  constructor
  · rw [hpieces.2]
    exact h.diagnostics 0
  · intro suffix
    have hread := h.reads 0 0 suffix
    rw [hpieces.1]
    simp only [read, StateT.run, hread, Nat.zero_add]

/-- A layer is loaded with a register above the short forms, a negative number of three bytes,
and a bitmask of which three slots are used. -/
theorem DecodedInstruction.read_encode_bitmask :
    let span : Span := ⟨⟨3, 5, 40⟩, ⟨3, 60, 95⟩⟩
    let form : Form := ⟨⟨0xc1⟩, "LAYERLOAD", .plain, 0, [.number, .number, .number, .bitmask]⟩
    let instruction : Instruction :=
      ⟨⟨0xc1⟩, 0, [⟨.number (.register (.value 300)), span⟩, ⟨.number (.constant (-70000)), span⟩,
        ⟨.number (.constant 5), span⟩,
        ⟨.bitmask [.constant 0, .constant 7, .constant 0, .register (.argument 3), .constant 0,
          .constant 0, .constant 0, .constant 1000], span⟩], span⟩
    let unit : CodeUnit := (CodeUnit.empty .script (ascii "A")).append [instruction]
    instruction.IsEncodable form ∧ unit.instructions = [instruction] ∧
      unit.encode.diagnostics = [] ∧
      ∀ suffix, read (unit.encode.bytes ++ suffix) =
        .ok ⟨instruction.bare, unit.encode.bytes.length⟩ := by
  intro span form instruction unit
  have hencodable : instruction.IsEncodable form := by
    constructor
    · constructor
      · decide +kernel
      · rfl
      · exact .cons trivial (.cons trivial (.cons trivial (.cons rfl .nil)))
    · decide
    · intro operand hoperand
      simp only [instruction, List.mem_cons, List.not_mem_nil, or_false] at hoperand
      rcases hoperand with rfl | rfl | rfl | rfl <;>
        exact ⟨by decide, (fun _ h => by cases h), trivial, trivial⟩
  exact ⟨hencodable, rfl, read_encode hencodable rfl⟩

end NovelAsm
