import NovelAsm.Proofs.Code.Reads

/-!
Decoding undoes encoding. An instruction that has the operands of its row, with linked
targets and with lists that fit their counts, is read back from the bytes that it was
written to (`reads_instruction`). The row of the table decides on both sides which
operands there are, so the proof is one case for each kind of slot.
-/

namespace NovelAsm

namespace Piece

@[simp]
theorem bytes_append (a b : Piece) : (a ++ b).bytes = a.bytes ++ b.bytes := rfl

@[simp]
theorem relocations_append (a b : Piece) :
    (a ++ b).relocations = a.relocations ++ b.relocations := rfl

@[simp]
theorem diagnostics_append (a b : Piece) :
    (a ++ b).diagnostics = a.diagnostics ++ b.diagnostics := rfl

@[simp]
theorem bytes_ofBytes (bytes : Bytes) : (ofBytes bytes).bytes = bytes := rfl

@[simp]
theorem bytes_u8 (value : Nat) : (u8 value).bytes = [value.toUInt8] := rfl

theorem diagnostics_of_mem {pieces : List Piece} (h : (concat pieces).diagnostics.hasErrors = false)
    {piece : Piece} (hpiece : piece ∈ pieces) : piece.diagnostics.hasErrors = false := by
  simp only [concat, Diagnostics.hasErrors, List.any_flatMap, List.any_eq_false] at h ⊢
  intro diagnostic hdiagnostic
  have hany := h piece hpiece
  simp only [Bool.not_eq_true, List.any_eq_false] at hany
  simpa using hany diagnostic hdiagnostic

end Piece

namespace Number

/-- The bytes of a number that has a form. -/
def form (value : Number) : Bytes := value.encode?.getD []

theorem piece_of_no_errors {span : Span} {value : Number}
    (h : (Piece.number span value).diagnostics.hasErrors = false) :
    value.encode? = some value.form ∧ (Piece.number span value).bytes = value.form := by
  simp only [Piece.number, form] at h ⊢
  cases hform : value.encode? with
  | some bytes => simp
  | none =>
      rw [hform] at h
      cases value <;> cases h

theorem reads_form {span : Span} {value : Number}
    (h : (Piece.number span value).diagnostics.hasErrors = false) :
    CodeReader.Reads Number.read value.form value :=
  reads_encode (piece_of_no_errors h).1

/-- The numbers of a list one behind another. -/
theorem concat_of_no_errors {span : Span} {values : List Number}
    (h : (Piece.concat (values.map (Piece.number span))).diagnostics.hasErrors = false) :
    (Piece.concat (values.map (Piece.number span))).bytes = values.flatMap form ∧
      ∀ value ∈ values, CodeReader.Reads Number.read value.form value := by
  have hnumber : ∀ value ∈ values, (Piece.number span value).diagnostics.hasErrors = false :=
    fun value hvalue => Piece.diagnostics_of_mem h (List.mem_map_of_mem hvalue)
  refine ⟨?_, fun value hvalue => reads_form (hnumber value hvalue)⟩
  simp only [Piece.concat, List.flatMap_map]
  apply List.flatMap_congr
  intro value hvalue
  exact (piece_of_no_errors (hnumber value hvalue)).2

theorem length_form_le (value : Number) : value.form.length ≤ 4 := by
  cases value with
  | constant value =>
      simp only [form, encode?, encodeConstant?]
      repeat' split
      all_goals simp [split, length_bigEndian]
  | register source =>
      cases source with
      | value index =>
          simp only [form, encode?, encodeRegister?]
          split <;> simp [split, length_bigEndian]
      | argument index =>
          simp only [form, encode?, encodeRegister?]
          split <;> simp

end Number

namespace Term

/-- How many values some terms leave on a stack, unless they take away more than it holds. -/
def heightAfter? : Nat → List Term → Option Nat
  | height, [] => some height
  | height, .push _ :: rest => heightAfter? (height + 1) rest
  | height, .apply operator :: rest =>
      if height < operator.arity then none
      else heightAfter? (height - operator.arity + 1) rest

end Term

namespace Slot

/-- An operand is one for a slot. Symbols may stand for places, and a table jump may leave
keys out. -/
def Holds : Slot → OperandValue → Prop
  | .number, .number _ => True
  | .register, .register _ => True
  | .byte, .byte value => value.toNat < 0x100
  | .flag _ _, .flag value => value.toNat < 0x100
  | .messageId, .messageId value => value.toNat < 0x1000000
  | .string, .string _ => True
  | .numberList, .numberList _ => True
  | .registerList, .registerList _ => True
  | .bitmask, .bitmask slots => slots.length = Instruction.bitmaskSlots
  | .target, .target destinations => destinations.length = 1
  | .targetTable, .targetTable keys destinations =>
      keys.length = destinations.length ∧ ∀ key ∈ keys, key.toInt ≤ 0xfffe
  | .paddedTable, .paddedTable _ => True
  | .expression, .expression terms => Term.heightAfter? 0 terms = some 1
  | .byteList, .byteList _ => True
  | _, _ => False

end Slot

namespace CodeTarget

/-- A target that is an address of no text. -/
def IsLinked (destination : CodeTarget) : Prop := ∃ value, destination = ⟨.address value, .origin⟩

end CodeTarget

namespace OperandValue

/-- An operand as the machine has it: all places are addresses, and a table jump has one for
each key. -/
def IsLinked : OperandValue → Prop
  | .target destinations => ∀ destination ∈ destinations, destination.IsLinked
  | .targetTable keys destinations =>
      (∀ destination ∈ destinations, destination.IsLinked) ∧
        keys = (List.range destinations.length).map Int32.ofNat
  | _ => True

/-- The list of an operand fits the field that counts it. For a table jump this is so by the
limit of its keys. -/
def CountsFit : OperandValue → Prop
  | .numberList values => values.length ≤ 0xff
  | .registerList values => values.length ≤ 0xff
  | .paddedTable values => values.length ≤ 0xffff
  | _ => True

instance : (value : OperandValue) → Decidable value.CountsFit
  | .numberList values => inferInstanceAs (Decidable (values.length ≤ 0xff))
  | .registerList values => inferInstanceAs (Decidable (values.length ≤ 0xff))
  | .paddedTable values => inferInstanceAs (Decidable (values.length ≤ 0xffff))
  | .number _ | .register _ | .byte _ | .flag _ | .messageId _ | .string _ | .bitmask _
  | .target _ | .targetTable _ _ | .expression _ | .byteList _ => inferInstanceAs (Decidable True)

end OperandValue

namespace CodeReader

open Piece (operand)

theorem reads_target {destination : CodeTarget} (h : destination.IsLinked) (offset : Nat) :
    Reads target (Piece.target offset destination).bytes destination := by
  obtain ⟨value, rfl⟩ := h
  have hvalue : value.toNat < 256 ^ 4 := value.toNat_lt
  have hread := (reads_littleEndian 4 value.toNat hvalue).map
    fun address => (⟨.address address.toUInt32, .origin⟩ : CodeTarget)
  have hvalue : value.toNat.toUInt32 = value := by simp
  rw [hvalue] at hread
  exact hread

theorem reads_byte {value : UInt32} (h : value.toNat < 0x100) (toValue : UInt32 → OperandValue) :
    Reads (do return toValue (← u8).toUInt32) (Piece.u8 value.toNat).bytes (toValue value) := by
  have hread := (reads_u8 value.toNat.toUInt8).map fun b => toValue b.toUInt32
  have hvalue : value.toNat.toUInt8.toUInt32 = value := by
    apply UInt32.toNat_inj.mp
    rw [UInt8.toNat_toUInt32, toNat_toUInt8]
    omega
  rwa [hvalue] at hread

theorem reads_messageId {value : UInt32} (h : value.toNat < 0x1000000) :
    Reads (slot .messageId) (Piece.u24 value.toNat).bytes (.messageId value) := by
  have hread := (reads_littleEndian 3 value.toNat h).map
    fun id => OperandValue.messageId id.toUInt32
  have hvalue : value.toNat.toUInt32 = value := by simp
  rwa [hvalue] at hread

theorem reads_string {span : Span} {text : Bytes}
    (h : (Piece.string span text).diagnostics.hasErrors = false) :
    Reads (slot .string) (Piece.string span text).bytes (.string text) := by
  simp only [Piece.string] at h ⊢
  split
  · rename_i hlong
    rw [if_pos hlong] at h
    cases h
  · rename_i hshort
    have hlength : text.length + 1 < 256 ^ 2 := by
      simp only [Piece.stringLimit] at hshort
      omega
    have hbytes := reads_bytes (text ++ [0])
    rw [List.length_append] at hbytes
    have hdrop : dropTerminator (text ++ [0]) = text := by simp [dropTerminator]
    have htext := hbytes.map fun bytes => OperandValue.string (dropTerminator bytes)
    rw [hdrop] at htext
    exact (reads_littleEndian 2 (text.length + 1) hlength).bind htext

/-- A counted list whose length fits one byte. -/
theorem reads_counted {α : Type} {item : CodeReader α} {code : α → Bytes} {values : List α}
    (hcount : values.length ≤ 0xff) (h : ∀ value ∈ values, Reads item (code value) value)
    (toValue : List α → OperandValue) :
    Reads (do let count ← u8; return toValue (← many item count.toNat))
      ([values.length.toUInt8] ++ values.flatMap code) (toValue values) := by
  have hlength : values.length.toUInt8.toNat = values.length := by
    rw [toNat_toUInt8]
    omega
  have hvalues := (reads_many values h).map toValue
  rw [← hlength] at hvalues
  exact (reads_u8 _).bind hvalues

/-- The mask of the first slots, without a limit to their number. -/
theorem testBit_mask (slots : List Number) (index : Nat) :
    (slots.foldr (fun value mask => (if value == Number.constant 0 then 0 else 1) + 2 * mask)
      0).testBit index = slots[index]?.any (· != Number.constant 0) := by
  induction slots generalizing index with
  | nil => simp
  | cons first rest ih =>
      simp only [List.foldr_cons]
      generalize rest.foldr _ 0 = mask at ih ⊢
      cases index with
      | zero =>
          by_cases hzero : first = .constant 0 <;> simp [hzero, Nat.add_mod]
      | succ index =>
          have hhalf : ((if first == .constant 0 then 0 else 1) + 2 * mask) / 2 = mask := by
            split <;> omega
          rw [Nat.testBit_succ, hhalf, ih]
          rfl

theorem mask_lt (slots : List Number) :
    slots.foldr (fun value mask => (if value == .constant 0 then 0 else 1) + 2 * mask) 0 <
      2 ^ slots.length := by
  induction slots with
  | nil => decide
  | cons first rest ih =>
      simp only [List.foldr_cons, List.length_cons, Nat.pow_succ]
      split <;> omega

theorem reads_bitmaskSlots {mask : UInt8} {slots : List Number} (first : Nat)
    (hmask : ∀ index, (h : index < slots.length) →
      mask.toNat.testBit (first + index) = (slots[index] != .constant 0))
    (h : ∀ value ∈ slots.filter (· != .constant 0), Reads Number.read value.form value) :
    Reads ((List.range' first slots.length).mapM (bitmaskSlot mask))
      ((slots.filter (· != .constant 0)).flatMap Number.form) slots := by
  induction slots generalizing first with
  | nil => exact Reads.pure []
  | cons value rest ih =>
      have hbit : mask.toNat.testBit first = (value != .constant 0) :=
        hmask 0 (by simp)
      have hrest : ∀ index, (h : index < rest.length) →
          mask.toNat.testBit (first + 1 + index) = (rest[index] != .constant 0) := by
        intro index hindex
        have hnext := hmask (index + 1) (by simpa using hindex)
        rwa [Nat.add_right_comm, Nat.add_assoc]
      simp only [List.length_cons, List.range'_succ, List.mapM_cons, bitmaskSlot, hbit]
      by_cases hzero : value = .constant 0
      · have hskip : (value :: rest).filter (· != .constant 0) =
            rest.filter (· != .constant 0) := by simp [hzero]
        rw [hskip] at h ⊢
        subst hzero
        exact (Reads.pure (Number.constant 0)).cons (ih (first + 1) hrest h)
      · have hkeep : (value :: rest).filter (· != .constant 0) =
            value :: rest.filter (· != .constant 0) := by simp [hzero]
        have htrue : (value != .constant 0) = true := by simpa using hzero
        rw [hkeep] at h ⊢
        have hmore := ih (first + 1) hrest
          fun other hother => h other (List.mem_cons_of_mem _ hother)
        simp only [htrue, if_true]
        exact (h value (List.mem_cons_self ..)).cons hmore

theorem reads_bitmask {span : Span} {slots : List Number}
    (hlength : slots.length = Instruction.bitmaskSlots)
    (h : (Piece.bitmask span slots).diagnostics.hasErrors = false) :
    Reads (slot .bitmask) (Piece.bitmask span slots).bytes (.bitmask slots) := by
  have htake : slots.take Instruction.bitmaskSlots = slots := by
    rw [← hlength, List.take_length]
  simp only [Piece.bitmask, htake, Piece.bytes_append, Piece.bytes_u8, Piece.bitmaskOf,
    Piece.diagnostics_append, Diagnostics.hasErrors_append, Bool.or_eq_false_iff] at h ⊢
  obtain ⟨hbytes, hnumbers⟩ := Number.concat_of_no_errors h.2
  have hmask := mask_lt slots
  rw [hlength] at hmask
  have hbits := testBit_mask slots
  rw [hbytes]
  generalize slots.foldr _ 0 = mask at hmask hbits ⊢
  have hnat : mask.toUInt8.toNat = mask := by
    rw [toNat_toUInt8]
    exact Nat.mod_eq_of_lt hmask
  have hslots := @reads_bitmaskSlots mask.toUInt8 slots 0 (by
    intro index hindex
    rw [hnat, Nat.zero_add, hbits, List.getElem?_eq_getElem hindex]
    rfl) hnumbers
  rw [hlength, ← List.range_eq_range'] at hslots
  exact (reads_u8 _).bind (hslots.map OperandValue.bitmask)

theorem target_bytes (destination : CodeTarget) (offset : Nat) :
    (Piece.target offset destination).bytes = (Piece.target 0 destination).bytes := by
  simp only [Piece.target]
  split <;> rfl

end CodeReader

/-- The keys of a dense table from one on. -/
def denseKeys (first count : Nat) : List Int32 := (List.range' first count).map Int32.ofNat

theorem toInt_ofNat {key : Nat} (h : key < 0x10000) : (Int32.ofNat key).toInt = key := by
  rw [Int32.toInt_ofNat_of_lt]
  omega

namespace Piece

theorem entryCount_dense (first : Nat) (destinations : List CodeTarget) (count : Nat)
    (hbound : first + destinations.length ≤ 0x10000) (hcount : count = first) :
    ((denseKeys first destinations.length).zip destinations).foldl
      (fun count entry => max count (entry.1.toInt + 1).toNat) count =
        first + destinations.length := by
  induction destinations generalizing first count with
  | nil => simpa [denseKeys] using hcount
  | cons destination rest ih =>
      simp only [List.length_cons] at hbound
      have hkey : (Int32.ofNat first).toInt = first := toInt_ofNat (by omega)
      simp only [denseKeys, List.length_cons, List.range'_succ, List.map_cons, List.zip_cons_cons,
        List.foldl_cons, hkey]
      rw [← denseKeys, ih (first + 1) _ (by omega) (by omega)]
      omega

theorem caseFor?_dense (first : Nat) (destinations : List CodeTarget)
    (hbound : first + destinations.length ≤ 0x10000) (index : Nat)
    (hindex : index < destinations.length) :
    caseFor? ((denseKeys first destinations.length).zip destinations) (first + index) =
      some destinations[index] := by
  induction destinations generalizing first index with
  | nil => simp at hindex
  | cons destination rest ih =>
      simp only [List.length_cons] at hbound hindex
      have hkey : (Int32.ofNat first).toInt = first := toInt_ofNat (by omega)
      simp only [denseKeys, List.length_cons, List.range'_succ, List.map_cons, List.zip_cons_cons,
        caseFor?, List.find?_cons, hkey]
      cases index with
      | zero => simp
      | succ index =>
          have hne : ((first : Int) == ((first + (index + 1) : Nat) : Int)) = false := by
            simp only [beq_eq_false_iff_ne]
            omega
          have hnext := ih (first + 1) (by omega) index (by omega)
          rw [Nat.add_right_comm, Nat.add_assoc] at hnext
          simp only [hne]
          exact hnext

section Range

variable {destinations : List CodeTarget} (h : destinations.length ≤ 0xffff)

include h

theorem entryCount_range :
    entryCount (((List.range destinations.length).map Int32.ofNat).zip destinations) =
      destinations.length := by
  rw [List.range_eq_range', ← denseKeys, entryCount, entryCount_dense 0 _ 0 (by omega) rfl,
    Nat.zero_add]

theorem caseFor?_range {index : Nat} (hindex : index < destinations.length) :
    caseFor? (((List.range destinations.length).map Int32.ofNat).zip destinations) index =
      some destinations[index] := by
  have hcase := caseFor?_dense 0 destinations (by omega) index hindex
  rwa [Nat.zero_add, denseKeys, ← List.range_eq_range'] at hcase

end Range

end Piece

namespace CodeReader

theorem flatMap_range {α : Type} (items : List α) (code : α → Bytes) (entry : Nat → Bytes)
    (h : ∀ index, (hindex : index < items.length) → entry index = code items[index]) :
    (List.range items.length).flatMap entry = items.flatMap code := by
  rw [List.flatMap_def, List.flatMap_def]
  congr 1
  apply List.ext_getElem
  · simp
  · intro index hleft hright
    simp only [List.getElem_map, List.getElem_range]
    exact h index (by simpa using hright)

/-- The bytes of a table that has a case for each key. -/
theorem bytes_dense {span : Span} {destinations : List CodeTarget} (offset : Nat)
    (hcount : destinations.length ≤ 0xffff) :
    (Piece.targetTable offset span
        (((List.range destinations.length).map Int32.ofNat).zip destinations)).bytes =
      NovelAsm.littleEndian 2 destinations.length ++
        destinations.flatMap fun destination => (Piece.target 0 destination).bytes := by
  simp only [Piece.targetTable, Piece.entryCount_range hcount, Piece.bytes_append, Piece.concat,
    List.flatMap_map]
  congr 1
  apply flatMap_range
  intro index hindex
  rw [Piece.caseFor?_range hcount hindex]
  exact target_bytes _ _

theorem reads_targetTable {span : Span} {destinations : List CodeTarget} (offset : Nat)
    (hlinked : ∀ destination ∈ destinations, destination.IsLinked)
    (hcount : destinations.length ≤ 0xffff) :
    let keys := (List.range destinations.length).map Int32.ofNat
    Reads (slot .targetTable) (Piece.targetTable offset span (keys.zip destinations)).bytes
      (.targetTable keys destinations) := by
  intro keys
  rw [bytes_dense offset hcount]
  have htargets := (reads_many destinations fun destination hdestination =>
    reads_target (hlinked destination hdestination) 0).map fun targets =>
      OperandValue.targetTable keys targets
  exact (reads_littleEndian 2 destinations.length (by omega)).bind htargets

theorem reads_paddedNumber {span : Span} {value : Number}
    (h : (Piece.number span value).diagnostics.hasErrors = false) :
    Reads paddedNumber (Piece.paddedNumber span value).bytes value := by
  have hlength := Number.length_form_le value
  have hread := Number.reads_form h
  have hpadding := reads_bytes (List.replicate (4 - value.form.length) 0)
  simp only [Piece.paddedNumber, Piece.bytes_append, (Number.piece_of_no_errors h).2, Piece.size,
    Piece.bytes_ofBytes, Piece.paddedWidth]
  rw [List.length_replicate] at hpadding
  intro position
  have htaken : position + value.form.length - position = value.form.length := by omega
  change ReadsAt _ _ ([] ++ (value.form ++ List.replicate _ _)) _
  apply (readsAt_position position).bind
  apply (hread _).bind
  apply (readsAt_position _).bind
  rw [List.length_nil, Nat.add_zero, htaken, ← List.append_nil (List.replicate _ _)]
  exact (hpadding _).bind (Reads.pure value _)

theorem reads_paddedTable {span : Span} {values : List Number} (hcount : values.length ≤ 0xffff)
    (h : (Piece.concat (values.map (Piece.paddedNumber span))).diagnostics.hasErrors = false) :
    Reads (slot .paddedTable)
      (Piece.u16 values.length ++ Piece.concat (values.map (Piece.paddedNumber span))).bytes
      (.paddedTable values) := by
  have hnumbers := (reads_many values fun value hvalue =>
    @reads_paddedNumber span value (by
      have hpiece := Piece.diagnostics_of_mem h (List.mem_map_of_mem hvalue)
      simp only [Piece.paddedNumber, Piece.diagnostics_append, Diagnostics.hasErrors_append,
        Bool.or_eq_false_iff] at hpiece
      exact hpiece.1)).map OperandValue.paddedTable
  have hbytes : (Piece.concat (values.map (Piece.paddedNumber span))).bytes =
      values.flatMap fun value => (Piece.paddedNumber span value).bytes := by
    simp only [Piece.concat, List.flatMap_map]
  rw [Piece.bytes_append, hbytes]
  exact (reads_littleEndian 2 values.length (by omega)).bind hnumbers

theorem ofCode?_code (operator : Operator) : Operator.ofCode? operator.code = some operator := by
  cases operator <;> rfl

theorem code_ne (operator : Operator) :
    operator.code ≠ Term.terminator ∧ operator.code ≠ Term.pushCode := by
  cases operator <;> decide

/-- Terms are read up to their terminator if the stack never underflows and one value is left. -/
theorem reads_termsFrom {span : Span} (start bound height : Nat) (taken terms : List Term)
    (hbound : terms.length < bound) (hheight : Term.heightAfter? height terms = some 1)
    (h : (Piece.concat (terms.map (Piece.term span))).diagnostics.hasErrors = false) :
    Reads (termsFrom start bound height taken)
      ((Piece.concat (terms.map (Piece.term span))).bytes ++ [Term.terminator])
      (taken.reverse ++ terms) := by
  induction terms generalizing bound height taken with
  | nil =>
      obtain ⟨bound, rfl⟩ : ∃ n, bound = n + 1 := ⟨bound - 1, by simp at hbound; omega⟩
      have hone : height = 1 := by simpa [Term.heightAfter?] using hheight
      apply Reads.position
      intro offset
      apply (reads_u8 Term.terminator).bindLast
      simp only [hone, beq_self_eq_true, if_true, List.append_nil]
      exact Reads.pure _
  | cons first rest ih =>
      obtain ⟨bound, rfl⟩ : ∃ n, bound = n + 1 := ⟨bound - 1, by simp at hbound; omega⟩
      have hrest : rest.length < bound := by simpa using hbound
      simp only [List.map_cons, Piece.concat, List.flatMap_cons, Diagnostics.hasErrors_append,
        Bool.or_eq_false_iff] at h
      have hlist : (taken.reverse ++ first :: rest) = (first :: taken).reverse ++ rest := by simp
      rw [hlist]
      apply Reads.position
      intro offset
      cases first with
      | push number =>
          have hnumber := h.1
          simp only [Piece.term, Piece.diagnostics_append, Diagnostics.hasErrors_append,
            Bool.or_eq_false_iff] at hnumber
          have hmore := ih bound (height + 1) (.push number :: taken) hrest hheight h.2
          simp only [List.map_cons, Piece.concat, List.flatMap_cons, Piece.term,
            Piece.bytes_append, List.append_assoc, (Number.piece_of_no_errors hnumber.2).2]
          apply (reads_u8 _).bind
          have hcode : Term.pushCode.toNat.toUInt8 = Term.pushCode := rfl
          have hends : (Term.pushCode == Term.terminator) = false := rfl
          rw [hcode]
          simp only [hends, beq_self_eq_true, if_true]
          exact (Number.reads_form hnumber.2).bind hmore
      | apply operator =>
          simp only [Term.heightAfter?] at hheight
          split at hheight
          · cases hheight
          · rename_i henough
            have hmore := ih bound _ (.apply operator :: taken) hrest hheight h.2
            have hcode : operator.code.toNat.toUInt8 = operator.code := by simp
            have hends : (operator.code == Term.terminator) = false := by
              simpa using (code_ne operator).1
            have hpush : (operator.code == Term.pushCode) = false := by
              simpa using (code_ne operator).2
            simp only [List.map_cons, Piece.concat, List.flatMap_cons, Piece.term,
              List.append_assoc]
            apply (reads_u8 _).bind
            rw [hcode]
            simp only [hends, hpush, ofCode?_code, if_neg henough]
            exact hmore

theorem length_le_terms (span : Span) (terms : List Term) :
    terms.length ≤ (Piece.concat (terms.map (Piece.term span))).bytes.length := by
  induction terms with
  | nil => exact Nat.le_refl 0
  | cons first rest ih =>
      have hfirst : 1 ≤ (Piece.term span first).bytes.length := by
        cases first <;> simp [Piece.term]
      simp only [Piece.concat, List.map_cons, List.flatMap_cons, List.length_append,
        List.length_cons] at ih ⊢
      omega

theorem reads_expression {span : Span} {terms : List Term}
    (hheight : Term.heightAfter? 0 terms = some 1)
    (h : (Piece.concat (terms.map (Piece.term span))).diagnostics.hasErrors = false) :
    Reads (slot .expression)
      (Piece.concat (terms.map (Piece.term span)) ++ Piece.u8 Term.terminator.toNat).bytes
      (.expression terms) := by
  have hterms : Reads CodeReader.terms
      ((Piece.concat (terms.map (Piece.term span))).bytes ++ [Term.terminator]) terms := by
    intro position tail
    have hlength := length_le_terms span terms
    exact reads_termsFrom position _ 0 [] terms
      (by simp only [List.length_append]; omega) hheight h position tail
  exact hterms.map OperandValue.expression

/-- An operand is read back by the reader of its slot. -/
theorem reads_slot {place : Slot} {operand : Operand} (offset : Nat)
    (hholds : place.Holds operand.value) (hlinked : operand.value.IsLinked)
    (hfit : operand.value.CountsFit) (hslot : place ≠ .byteList)
    (h : (Piece.operand offset operand).diagnostics.hasErrors = false) :
    Reads (slot place) (Piece.operand offset operand).bytes operand.value := by
  obtain ⟨value, span⟩ := operand
  cases place <;> cases value <;> try exact hholds.elim
  case number.number value =>
      rw [show (Piece.operand offset ⟨.number value, span⟩) = Piece.number span value from rfl]
        at h ⊢
      rw [(Number.piece_of_no_errors h).2]
      exact (Number.reads_form h).map OperandValue.number
  case register.register value => exact (reads_register value).map OperandValue.register
  case byte.byte value => exact reads_byte hholds OperandValue.byte
  case flag.flag _ _ value => exact reads_byte hholds OperandValue.flag
  case messageId.messageId value => exact reads_messageId hholds
  case string.string text => exact reads_string h
  case numberList.numberList values =>
      simp only [Piece.operand, Piece.diagnostics_append, Diagnostics.hasErrors_append,
        Bool.or_eq_false_iff] at h
      obtain ⟨hbytes, hnumbers⟩ := Number.concat_of_no_errors h.2
      simp only [Piece.operand, Piece.bytes_append, hbytes]
      exact reads_counted hfit hnumbers OperandValue.numberList
  case registerList.registerList values =>
      exact reads_counted hfit (fun source _ => reads_register source) OperandValue.registerList
  case bitmask.bitmask slots => exact reads_bitmask hholds h
  case target.target destinations =>
      obtain ⟨destination, rfl⟩ := List.length_eq_one_iff.mp hholds
      have hread := (reads_target (hlinked destination (List.mem_singleton_self _)) offset).map
        fun destination => OperandValue.target [destination]
      have hbytes : (Piece.operand offset ⟨.target [destination], span⟩).bytes =
          (Piece.target offset destination).bytes := by
        simp [Piece.operand, Piece.targets, Piece.concat]
      rw [hbytes]
      exact hread
  case targetTable.targetTable keys destinations =>
      obtain ⟨htargets, rfl⟩ := hlinked
      have hcount : destinations.length ≤ 0xffff := by
        by_contra hlong
        have hkey := hholds.2 (Int32.ofNat 0xffff)
          (List.mem_map_of_mem (List.mem_range.mpr (by omega)))
        exact absurd hkey (by decide)
      exact reads_targetTable offset htargets hcount
  case paddedTable.paddedTable values =>
      simp only [Piece.operand, Piece.diagnostics_append, Diagnostics.hasErrors_append,
        Bool.or_eq_false_iff] at h
      exact reads_paddedTable hfit h.2
  case expression.expression terms =>
      simp only [Piece.operand, Piece.diagnostics_append, Diagnostics.hasErrors_append,
        Bool.or_eq_false_iff] at h
      exact reads_expression hholds h.1
  case byteList.byteList values => exact absurd rfl hslot

/-- Operands in code, each for its slot. -/
theorem reads_operands {slots : List Slot} {operands : List Operand} (offset : Nat)
    (hholds : List.Forall₂ (fun place operand => place.Holds operand.value) slots operands)
    (hmachine : ∀ operand ∈ operands,
      operand.value.IsLinked ∧ operand.value.CountsFit ∧ operand.span = .origin)
    (hslots : Slot.byteList ∉ slots)
    (h : (Piece.operands offset operands).diagnostics.hasErrors = false) :
    Reads (CodeReader.operands slots) (Piece.operands offset operands).bytes operands := by
  induction hholds generalizing offset with
  | nil => exact Reads.pure []
  | @cons place operand slots operands hfirst _ ih =>
      simp only [Piece.operands, Piece.diagnostics_append, Diagnostics.hasErrors_append,
        Bool.or_eq_false_iff] at h
      obtain ⟨hlinked, hfit, hspan⟩ := hmachine operand (List.mem_cons_self ..)
      have hplace : place ≠ .byteList := fun heq => hslots (heq ▸ List.mem_cons_self ..)
      have hread := (reads_slot offset hfirst hlinked hfit hplace h.1).map
        fun value => (⟨value, .origin⟩ : Operand)
      have hoperand : (⟨operand.value, .origin⟩ : Operand) = operand := by rw [← hspan]
      rw [hoperand] at hread
      have hrest := ih _ (fun other hother => hmachine other (List.mem_cons_of_mem _ hother))
        (fun hmem => hslots (List.mem_cons_of_mem _ hmem)) h.2
      simp only [CodeReader.operands, List.mapM_cons]
      exact hread.cons hrest

end CodeReader

namespace Form

/-- The slots that follow a type byte. A typed operation without its bit for the optional
operand lacks the second one. -/
def slotsFor (form : Form) (subtype : UInt8) : List Slot :=
  if form.layout == .typedOptional && subtype &&& Instruction.explicitBit == 0 then
    form.slots.eraseIdx 1
  else form.slots

/-- A type byte that a row can have. -/
def TakesSubtype (form : Form) (subtype : UInt8) : Prop :=
  match form.layout with
  | .plain => subtype = 0
  | .typedOptional => form.subtype = subtype &&& ~~~Instruction.explicitBit
  | .conditional => (Condition.ofCode? (subtype &&& ~~~Instruction.negatedBit)).isSome

/-- The opcode of each row but that of raw data takes one byte, and no list of bytes is coded. -/
theorem table_rows : ∀ form ∈ table, form.opcode = .rawData ∨
    form.opcode.code.toNat < 0x100 ∧ Slot.byteList ∉ form.slots := by
  decide +kernel

/-- The first row of an opcode has the layout and the slots of every row of it. -/
theorem first_of_opcode : ∀ form ∈ table,
    (ofOpcode? form.opcode 0).map (fun first => (first.layout, first.slots)) =
      some (form.layout, form.slots) := by
  decide +kernel

/-- Rows of one opcode have one layout. -/
theorem layout_of_opcode {form other : Form} (hform : form ∈ table) (hother : other ∈ table)
    (hopcode : other.opcode = form.opcode) : other.layout = form.layout := by
  have hfirst := first_of_opcode form hform
  rw [← hopcode, first_of_opcode other hother] at hfirst
  exact congrArg Prod.fst (Option.some.inj hfirst)

theorem of_ofOpcode? {opcode : Opcode} {subtype : UInt8} {form : Form}
    (h : ofOpcode? opcode subtype = some form) : form ∈ table ∧ form.opcode = opcode := by
  have hrow := List.find?_some h
  simp only [Bool.and_eq_true, beq_iff_eq] at hrow
  exact ⟨List.mem_of_find?_eq_some h, hrow.1⟩

theorem ofOpcode?_of_layout {opcode : Opcode} {form : Form} (h : ofOpcode? opcode 0 = some form)
    (hlayout : form.layout ≠ .typedOptional) (subtype : UInt8) :
    ofOpcode? opcode subtype = some form := by
  obtain ⟨hrow, hopcode⟩ := of_ofOpcode? h
  rw [← h, ofOpcode?, ofOpcode?]
  refine List.find?_congr fun other hother => ?_
  by_cases heq : other.opcode = opcode
  · rw [layout_of_opcode hrow hother (heq.trans hopcode.symm), bne_iff_ne.mpr hlayout]
    rfl
  · rw [beq_eq_false_iff_ne.mpr heq]
    rfl

theorem byteList_notMem_slotsFor {form : Form} (subtype : UInt8)
    (h : Slot.byteList ∉ form.slots) : Slot.byteList ∉ form.slotsFor subtype := by
  simp only [slotsFor]
  split
  · exact fun hmem => h (List.mem_of_mem_eraseIdx hmem)
  · exact h

end Form

namespace Instruction

/-- An instruction of the machine: it has a row in the table, and the operands of that. -/
structure OfForm (instruction : Instruction) (form : Form) : Prop where
  row : Form.ofInstruction? instruction = some form
  subtype : form.TakesSubtype instruction.subtype
  operands : List.Forall₂ (fun place operand => place.Holds operand.value)
    (form.slotsFor instruction.subtype) instruction.operands

/-- An instruction as it stands in code, with no places of a text. -/
structure IsLinked (instruction : Instruction) : Prop where
  operands : ∀ operand ∈ instruction.operands, operand.value.IsLinked ∧ operand.span = .origin
  span : instruction.span = .origin

/-- Each list of an instruction fits the field that counts it. -/
def CountsFit (instruction : Instruction) : Prop :=
  ∀ operand ∈ instruction.operands, operand.value.CountsFit

instance (instruction : Instruction) : Decidable instruction.CountsFit :=
  inferInstanceAs (Decidable (∀ operand ∈ instruction.operands, operand.value.CountsFit))

end Instruction

namespace CodeReader

/-- What is read between an opcode and the operands of an instruction. -/
theorem reads_typeByte {instruction : Instruction} {form first : Form}
    (hrow : Form.ofInstruction? instruction = some form)
    (hsubtype : form.TakesSubtype instruction.subtype) (hlayout : first.layout = form.layout)
    (hslots : first.slots = form.slots) {code : UInt8}
    (hcode : (⟨code.toUInt16⟩ : Opcode) = instruction.opcode) :
    Reads (typeByte code first)
      (if form.layout == .plain then Piece.empty else Piece.u8 instruction.subtype.toNat).bytes
      (instruction.subtype, form.slotsFor instruction.subtype) := by
  have hbyte : instruction.subtype.toNat.toUInt8 = instruction.subtype := by simp
  simp only [typeByte, hlayout]
  cases hform : form.layout with
  | plain =>
      simp only [Form.TakesSubtype, hform] at hsubtype
      simp only [hsubtype, Form.slotsFor, hform, hslots]
      exact Reads.pure _
  | conditional =>
      simp only [Form.TakesSubtype, hform] at hsubtype
      obtain ⟨condition, hcondition⟩ := Option.isSome_iff_exists.mp hsubtype
      have hread : Reads CodeReader.condition [instruction.subtype] instruction.subtype := by
        apply (reads_u8 instruction.subtype).bindLast
        rw [hcondition]
        exact Reads.pure _
      have hresult := hread.map fun subtype => (subtype, first.slots)
      simpa [Form.slotsFor, hform, hslots, hbyte] using hresult
  | typedOptional =>
      have hread : Reads (typedSlots code) [instruction.subtype]
          (instruction.subtype, form.slotsFor instruction.subtype) := by
        apply (reads_u8 instruction.subtype).bindLast
        rw [hcode, ← Form.ofInstruction?, hrow]
        simp only [Form.slotsFor, hform, beq_self_eq_true, Bool.true_and]
        by_cases hbit : instruction.subtype &&& Instruction.explicitBit = 0
        · simp only [hbit, bne_self_eq_false, beq_self_eq_true, if_true, Bool.false_eq_true,
            if_false]
          exact Reads.pure _
        · have hne : (instruction.subtype &&& Instruction.explicitBit != 0) = true := by
            simpa using hbit
          have hbeq : (instruction.subtype &&& Instruction.explicitBit == 0) = false := by
            simpa using hbit
          simp only [hne, hbeq, if_true, Bool.false_eq_true, if_false]
          exact Reads.pure _
      simpa [hbyte] using hread

/-- Decoding undoes encoding: a linked instruction of the table whose lists fit their counts is
read back from its bytes, whatever follows them. -/
theorem reads_instruction {instruction : Instruction} {form : Form} (offset : Nat)
    (hform : instruction.OfForm form) (hlinked : instruction.IsLinked)
    (hfit : instruction.CountsFit) (hraw : instruction.opcode ≠ .rawData)
    (h : (Piece.instruction offset instruction).diagnostics.hasErrors = false) :
    Reads CodeReader.instruction (Piece.instruction offset instruction).bytes instruction := by
  obtain ⟨hmem, hopcode⟩ := Form.of_ofOpcode? hform.row
  obtain ⟨hbyte, hlist⟩ := (Form.table_rows form hmem).resolve_left (hopcode ▸ hraw)
  have hfirst := Form.first_of_opcode form hmem
  rw [hopcode] at hbyte hfirst
  obtain ⟨first, hrow, hpair⟩ := Option.map_eq_some_iff.mp hfirst
  obtain ⟨hlayout, hslots⟩ := Prod.mk.inj hpair
  simp only [Piece.instruction, hform.row] at h ⊢
  have hselect : (instruction.opcode == .select) = false := by
    rw [← Bool.not_eq_true]
    intro heq
    rw [if_pos heq] at h
    cases h
  simp only [hselect, Bool.false_eq_true, if_false, Piece.diagnostics_append,
    Diagnostics.hasErrors_append, Bool.or_eq_false_iff] at h ⊢
  have hcode : (⟨instruction.opcode.code.toNat.toUInt8.toUInt16⟩ : Opcode) =
      instruction.opcode := by
    have hsame : instruction.opcode.code.toNat.toUInt8.toUInt16 = instruction.opcode.code := by
      apply UInt16.toNat_inj.mp
      rw [UInt8.toNat_toUInt16, toNat_toUInt8]
      omega
    rw [hsame]
  have hnotSelect : (instruction.opcode.code.toNat.toUInt8.toUInt16 == Opcode.select.code) =
      false := by
    rw [beq_eq_false_iff_ne]
    intro heq
    rw [heq] at hcode
    rw [← hcode] at hselect
    cases hselect
  have hrawBeq : (instruction.opcode == .rawData) = false := by simpa using hraw
  have hhead : (Piece.head form instruction).bytes = [instruction.opcode.code.toNat.toUInt8] ++
      (if form.layout == .plain then Piece.empty
        else Piece.u8 instruction.subtype.toNat).bytes := by
    simp only [Piece.head, hrawBeq, Bool.false_eq_true, if_false, Piece.bytes_append,
      Piece.bytes_u8]
  have htype := reads_typeByte hform.row hform.subtype hlayout hslots hcode
  have hoperands := (reads_operands (offset + (Piece.head form instruction).size) hform.operands
    (fun operand hoperand => ⟨(hlinked.operands operand hoperand).1, hfit operand hoperand,
      (hlinked.operands operand hoperand).2⟩)
    (Form.byteList_notMem_slotsFor instruction.subtype hlist) h.2).map fun operands =>
      (⟨instruction.opcode, instruction.subtype, operands, .origin⟩ : Instruction)
  have hwhole : (⟨instruction.opcode, instruction.subtype, instruction.operands, .origin⟩ :
      Instruction) = instruction := by rw [← hlinked.span]
  rw [hwhole] at hoperands
  rw [Piece.bytes_append, hhead, List.append_assoc]
  apply (reads_u8 _).bind
  simp only [hnotSelect, Bool.false_eq_true, if_false, hcode, hrow]
  exact htype.bind hoperands

end CodeReader

end NovelAsm
