import NovelAsm.Proofs.Code.Decoded
import NovelAsm.Proofs.Code.Locality
import NovelAsm.Proofs.Code.Placement

/-!
What reading takes. A number is encoded in its shortest form, so a reader takes no fewer bytes
than the encoding of what it answers has (`CodeReader.Spends`), with one exception: a text may be
stored without a terminator, which its encoding adds. So an instruction without texts is encoded
again in no more bytes than it was decoded from (`Instruction.IsDecoded.size_le`), and one
that is encoded in as many bytes as it was decoded from holds no text that is too long for a
terminator (`DecodedInstruction.exists_isEncodable`).
-/

namespace NovelAsm

namespace Piece

theorem size_append (a b : Piece) : (a ++ b).size = a.size + b.size := List.length_append

theorem size_u8 (value : Nat) : (u8 value).size = 1 := rfl

theorem size_u16 (value : Nat) : (u16 value).size = 2 := length_littleEndian 2 value

theorem size_head_le (form : Form) (instruction : Instruction) :
    (head form instruction).size ≤ 1 + if form.layout == .plain then 0 else 1 := by
  rw [head, size_append]
  split <;> split <;> simp [size, empty]

theorem size_concat_map {α : Type} (items : List α) (piece : α → Piece) :
    (concat (items.map piece)).size = (items.map fun item => (piece item).size).sum := by
  simp only [size, bytes_concat, List.flatMap_map, List.length_flatMap]

/-- A number that has a form takes as many bytes as that. -/
theorem size_number_of_form {span : Span} {value : Number} (h : value.encode?.isSome = true) :
    (number span value).size = value.form.length := by
  obtain ⟨bytes, hbytes⟩ := Option.isSome_iff_exists.mp h
  rw [size, bytes_number, Number.form, hbytes]
  rfl

theorem size_paddedNumber {span : Span} {value : Number} (h : value.encode?.isSome = true) :
    (paddedNumber span value).size = 4 := by
  have hle := value.length_form_le
  rw [paddedNumber, size_append, size_number_of_form h, size, bytes_ofBytes,
    List.length_replicate, paddedWidth]
  omega

end Piece

namespace Number

theorem fits_of_form {bits value : Nat} (hbits : 0 < bits) (hle : bits ≤ 28)
    (hvalue : value < 2 ^ bits) :
    ∃ number : Int32, ofBits bits value = .constant number ∧ fits bits number.toInt = true := by
  have hhalf : 2 ^ bits = 2 * 2 ^ (bits - 1) := by
    rw [← Nat.pow_succ', Nat.succ_eq_add_one, Nat.sub_add_cancel hbits]
  have hlimit : 2 ^ (bits - 1) ≤ 2 ^ 27 := Nat.pow_le_pow_right (by decide) (by omega)
  have hbounds : -(2 ^ (bits - 1) : Nat) ≤ ofTwosComplement bits value ∧
      ofTwosComplement bits value < (2 ^ (bits - 1) : Nat) := by
    simp only [ofTwosComplement, Nat.pow_eq]
    split <;> omega
  refine ⟨_, rfl, ?_⟩
  rw [Int32.toInt_ofInt_of_le (by omega) (by omega), fits, Bool.and_eq_true, decide_eq_true_eq,
    decide_eq_true_eq]
  exact ⟨hbounds.2, hbounds.1⟩

/-- The form of a constant is no longer than one of those that it fits. -/
theorem length_encodeConstant_le (value : Int) :
    let size := ((encodeConstant? value).getD []).length
    (fits 7 value = true → size ≤ 1) ∧ (fits 12 value = true → size ≤ 2) ∧
      (fits 20 value = true → size ≤ 3) := by
  intro size
  simp only [size, encodeConstant?]
  split
  · simp
  · split
    · simp_all [split, length_bigEndian]
    · split <;> simp_all [split, length_bigEndian]

theorem length_form_ofBits {bits value : Nat} (hvalue : value < 2 ^ bits) :
    (bits = 7 → (ofBits bits value).form.length ≤ 1) ∧
      (bits = 12 → (ofBits bits value).form.length ≤ 2) ∧
      (bits = 20 → (ofBits bits value).form.length ≤ 3) := by
  refine ⟨?_, ?_, ?_⟩
  all_goals
    rintro rfl
    obtain ⟨number, hnumber, hfits⟩ := fits_of_form (by decide) (by decide) hvalue
    rw [hnumber]
  · exact (length_encodeConstant_le _).1 hfits
  · exact (length_encodeConstant_le _).2.1 hfits
  · exact (length_encodeConstant_le _).2.2 hfits

theorem length_form_value {raw : Nat} (h : raw < 0x1000) :
    (ofRegister (Register.value? raw)).form.length ≤ 2 ∧
      (raw < 16 → (ofRegister (Register.value? raw)).form.length ≤ 1) := by
  rw [Register.value?, dif_pos h]
  simp only [ofRegister, Option.getD_some, form, encode?, encodeRegister?]
  split <;> simp_all [split, length_bigEndian]

theorem length_form_argument {raw : Nat} (h : raw < 16) :
    (ofRegister (Register.argument? raw)).form.length ≤ 1 := by
  rw [Register.argument?, dif_pos (by omega)]
  simp only [ofRegister, Option.getD_some, form, encode?, encodeRegister?, if_pos h]
  exact Nat.le_refl 1

end Number

namespace CodeReader

variable {α β : Type}

/-- A reader takes as many bytes as its answer costs at least. -/
def Spends (reader : CodeReader α) (cost : α → Nat) : Prop :=
  ∀ state value after, reader state = .ok (value, after) →
    state.position + cost value ≤ after.position

theorem Local.spends {reader : CodeReader α} (h : Local reader) : Spends reader fun _ => 0 := by
  intro state value after hrun
  obtain ⟨taken, -, hposition, -⟩ := h state value after hrun
  exact hposition ▸ Nat.le_add_right _ _

theorem Spends.mono {reader : CodeReader α} {cost less : α → Nat} (h : Spends reader cost)
    (hle : ∀ value, less value ≤ cost value) : Spends reader less := by
  intro state value after hrun
  exact Nat.le_trans (Nat.add_le_add_left (hle value) _) (h state value after hrun)

/-- What is taken behind an answer, of which something is known, adds to what that costs. -/
theorem Spends.follow {reader : CodeReader α} {next : α → CodeReader β} {cost : α → Nat}
    {total : β → Nat} {P : α → Prop} (h : Spends reader cost) (hanswers : Answers reader P)
    (hnext : ∀ value, P value → Spends (next value) fun result => total result - cost value) :
    Spends (reader >>= next) total := by
  intro state result after hrun
  change (reader state >>= fun (value, state) => next value state) = .ok (result, after) at hrun
  cases hfirst : reader state with
  | error failure =>
      rw [hfirst] at hrun
      cases hrun
  | ok answer =>
      rw [hfirst] at hrun
      have hcost := h state answer.1 answer.2 hfirst
      have hmore := hnext answer.1 (hanswers state _ _ hfirst) answer.2 result after hrun
      dsimp only at hmore
      omega

theorem Spends.bind {reader : CodeReader α} {next : α → CodeReader β} {cost : α → Nat}
    {total : β → Nat} (h : Spends reader cost)
    (hnext : ∀ value, Spends (next value) fun result => total result - cost value) :
    Spends (reader >>= next) total :=
  h.follow (answers_true reader) fun value _ => hnext value

theorem spends_pure {value : α} {cost : α → Nat} (h : cost value = 0) :
    Spends (pure value) cost := by
  rintro state _ _ ⟨⟩
  rw [h]
  exact Nat.le_refl _

theorem spends_fail (problem : DecodeProblem) (offset : Nat) (cost : α → Nat) :
    Spends (fail problem offset) cost := nofun

/-- An answer that is changed, and costs no more then. -/
theorem Spends.map {reader : CodeReader α} {cost : α → Nat} {total : β → Nat} {P : α → Prop}
    (h : Spends reader cost) (hanswers : Answers reader P) (change : α → β)
    (hle : ∀ value, P value → total (change value) ≤ cost value) :
    Spends (do return change (← reader)) total :=
  h.follow hanswers fun value hvalue => spends_pure (Nat.sub_eq_zero_of_le (hle value hvalue))

theorem spends_u8 : Spends u8 fun _ => 1 := by
  rintro ⟨rest, position⟩ value after hrun
  cases rest with
  | nil => cases hrun
  | cons b rest =>
      cases hrun
      exact Nat.le_refl _

theorem spends_collect {item : CodeReader α} {cost : α → Nat} (h : Spends item cost) (count : Nat)
    (taken : List α) : Spends (collect item count taken) fun values =>
      (values.map cost).sum - (taken.map cost).sum := by
  induction count generalizing taken with
  | zero => exact spends_pure (by simp)
  | succ count ih =>
      refine h.bind fun value => (ih (value :: taken)).mono fun values => ?_
      rw [List.map_cons, List.sum_cons]
      omega

theorem spends_many {item : CodeReader α} {cost : α → Nat} (h : Spends item cost) (count : Nat) :
    Spends (many item count) fun values => (values.map cost).sum :=
  spends_collect h count []

theorem spends_bytes (count : Nat) : Spends (many u8 count) List.length :=
  (spends_many spends_u8 count).mono fun bytes => by simp

theorem spends_littleEndian (width : Nat) : Spends (littleEndian width) fun _ => width :=
  (spends_bytes width).map (many_length u8 width) _ fun _ hlength => hlength.ge

theorem spends_bigEndian (width : Nat) : Spends (bigEndian width) fun _ => width :=
  (spends_bytes width).map (many_length u8 width) _ fun _ hlength => hlength.ge

theorem spends_mapM {step : α → CodeReader β} {cost : β → Nat} (items : List α)
    (h : ∀ item, Spends (step item) cost) :
    Spends (items.mapM step) fun values => (values.map cost).sum := by
  induction items with
  | nil => exact spends_pure rfl
  | cons item rest ih =>
      rw [List.mapM_cons]
      refine (h item).bind fun value => Spends.bind ih fun values => spends_pure ?_
      simp

theorem spends_readTail (high more : Nat) : Spends (Number.readTail high more) fun _ => more :=
  (spends_bigEndian more).map (answers_true _) _ fun _ _ => Nat.le_refl _

/-- The bytes of a number are the shortest that it has. -/
theorem spends_number : Spends Number.read fun value => value.form.length := by
  refine local_position.spends.bind fun start => spends_u8.bind fun first => ?_
  have hhigh : first.toNat % 16 < 16 := Nat.mod_lt _ (by decide)
  have hfirst := first.toNat_lt
  dsimp only
  have htail (more : Nat) (result : Nat → Number)
      (h : ∀ value < 16 * 256 ^ more, (result value).form.length ≤ more + 1) :
      Spends (do return result (← Number.readTail (first.toNat % 16) more))
        fun value => value.form.length - 0 - 1 :=
    (spends_readTail _ more).map (readTail_lt hhigh more) result fun value hvalue => by
      have := h value hvalue
      omega
  split
  · exact htail 1 _ fun value hvalue => (Number.length_form_ofBits hvalue).2.1 rfl
  · exact htail 2 _ fun value hvalue => (Number.length_form_ofBits hvalue).2.2 rfl
  · exact htail 3 _ fun value hvalue => Number.length_form_le _
  · exact spends_pure (Nat.sub_eq_zero_of_le ((Number.length_form_value (by omega)).2 hhigh))
  · exact htail 1 (fun raw => Number.ofRegister (Register.value? raw)) fun value hvalue =>
      (Number.length_form_value hvalue).1
  · exact spends_pure (Nat.sub_eq_zero_of_le (Number.length_form_argument hhigh))
  · split
    · exact spends_pure (Nat.sub_eq_zero_of_le ((Number.length_form_ofBits (by omega)).1 rfl))
    · exact spends_fail _ _ _

theorem spends_register : Spends register fun _ => 2 := by
  refine local_position.spends.bind fun start => (spends_littleEndian 2).bind fun raw => ?_
  split
  · exact spends_pure rfl
  · exact spends_fail _ _ _

theorem spends_target : Spends target fun _ => 4 :=
  (spends_littleEndian 4).map (answers_true _) _ fun _ _ => Nat.le_refl _

/-- An entry of a table is padded to its width. -/
theorem spends_paddedNumber : Spends paddedNumber fun _ => 4 := by
  rintro state value after hrun
  change (Number.read state >>= fun (number, middle) =>
    many u8 (4 - (middle.position - state.position)) middle >>= fun (_, behind) =>
      Except.ok (number, behind)) = _ at hrun
  cases hnumber : Number.read state with
  | error failure =>
      rw [hnumber] at hrun
      cases hrun
  | ok answer =>
      obtain ⟨number, middle⟩ := answer
      rw [hnumber] at hrun
      change (many u8 (4 - (middle.position - state.position)) middle >>= fun (_, behind) =>
        Except.ok (number, behind)) = _ at hrun
      cases hpadding : many u8 (4 - (middle.position - state.position)) middle with
      | error failure =>
          rw [hpadding] at hrun
          cases hrun
      | ok padding =>
          rw [hpadding] at hrun
          cases hrun
          have hlength := many_length u8 _ _ _ _ hpadding
          have hspent := spends_bytes _ _ _ _ hpadding
          have hstart := local_number.spends _ _ _ hnumber
          rw [hlength] at hspent
          change state.position + 4 ≤ padding.2.position
          omega

/-- What a slot of a bitmask takes: nothing, if it holds zero. -/
def slotSize (value : Number) : Nat := if value == .constant 0 then 0 else value.form.length

theorem spends_bitmaskSlot (mask : UInt8) (index : Nat) :
    Spends (bitmaskSlot mask index) slotSize := by
  rw [bitmaskSlot]
  split
  · refine spends_number.mono fun value => ?_
    rw [slotSize]
    split
    · exact Nat.zero_le _
    · exact Nat.le_refl _
  · exact spends_pure rfl

/-- What a term takes: its code, and the number that is pushed. -/
def termSize : Term → Nat
  | .push value => 1 + value.form.length
  | .apply _ => 1

theorem spends_termsFrom (start bound depth : Nat) (taken : List Term) :
    Spends (termsFrom start bound depth taken) fun terms =>
      (terms.map termSize).sum + 1 - (taken.map termSize).sum := by
  induction bound generalizing depth taken with
  | zero => exact local_position.spends.bind fun _ => spends_fail _ _ _
  | succ bound ih =>
      refine local_position.spends.bind fun offset => spends_u8.bind fun code => ?_
      split
      · split
        · exact spends_pure (by simp)
        · exact spends_fail _ _ _
      · split
        · refine spends_number.bind fun number => (ih _ _).mono fun terms => ?_
          simp only [List.map_cons, List.sum_cons, termSize]
          omega
        · split
          · exact spends_fail _ _ _
          · split
            · exact spends_fail _ _ _
            · refine (ih _ _).mono fun terms => ?_
              simp only [List.map_cons, List.sum_cons, termSize]
              omega

theorem spends_remaining : Spends remaining fun _ => 0 := by
  rintro state _ _ ⟨⟩
  exact Nat.le_refl _

theorem spends_terms : Spends terms fun terms => (terms.map termSize).sum + 1 :=
  local_position.spends.bind fun _ => spends_remaining.bind fun _ => spends_termsFrom _ _ _ _

end CodeReader

/-- The keys of a table jump bound its length. -/
theorem Slot.Holds.length_le {place : Slot} {destinations : List CodeTarget}
    (h : place.Holds (.targetTable ((List.range destinations.length).map Int32.ofNat)
      destinations)) : destinations.length ≤ 0xffff := by
  cases place <;> first | exact h.elim | skip
  by_contra hlong
  have hlast := h.2 (Int32.ofNat 0xffff)
    (List.mem_map_of_mem (List.mem_range.mpr (Nat.not_le.mp hlong)))
  exact absurd hlast (by decide)

/-- How many bytes a value is read from at least: as many as it is encoded in, but for the
terminator of a text. -/
def OperandValue.leastSize : OperandValue → Nat
  | .string text => 2 + text.length
  | value => (Piece.operand 0 ⟨value, .origin⟩).size

namespace Piece

variable {span : Span}

theorem size_concat_numbers {values : List Number}
    (h : ∀ value ∈ values, value.encode?.isSome = true) :
    (concat (values.map (number span))).size = (values.map (·.form.length)).sum := by
  rw [size_concat_map]
  exact congrArg List.sum
    (List.map_congr_left fun value hvalue => size_number_of_form (h value hvalue))

theorem size_concat_padded {values : List Number}
    (h : ∀ value ∈ values, value.encode?.isSome = true) :
    (concat (values.map (paddedNumber span))).size = (values.map fun _ => 4).sum := by
  rw [size_concat_map]
  exact congrArg List.sum
    (List.map_congr_left fun value hvalue => size_paddedNumber (h value hvalue))

theorem size_concat_terms {terms : List Term}
    (h : ∀ value ∈ terms.filterMap Term.number?, value.encode?.isSome = true) :
    (concat (terms.map (term span))).size = (terms.map CodeReader.termSize).sum := by
  rw [size_concat_map]
  refine congrArg List.sum (List.map_congr_left fun value hvalue => ?_)
  cases value with
  | push value =>
      have hform := h value (List.mem_filterMap.mpr ⟨_, hvalue, rfl⟩)
      rw [term, size_append, size_u8, size_number_of_form hform, CodeReader.termSize]
  | apply operator => rfl

/-- A bitmask takes its mask and the numbers of its first slots that are not zero. -/
theorem size_bitmask_le {slots : List Number} (h : ∀ value ∈ slots, value.encode?.isSome = true) :
    (bitmask span slots).size ≤ 1 + (slots.map CodeReader.slotSize).sum := by
  have hused : ∀ value ∈ (slots.take Instruction.bitmaskSlots).filter (· != .constant 0),
      value.encode?.isSome = true := fun value hvalue =>
    h value (List.mem_of_mem_take (List.mem_filter.mp hvalue).1)
  have hfilter (values : List Number) :
      ((values.filter (· != .constant 0)).map (·.form.length)).sum =
        (values.map CodeReader.slotSize).sum := by
    induction values with
    | nil => rfl
    | cons first rest ih =>
        by_cases hzero : first = .constant 0 <;> simp [CodeReader.slotSize, hzero, ih]
  rw [bitmask, size_append, size_u8, size_concat_numbers hused, hfilter]
  exact Nat.add_le_add_left
    (((List.take_sublist _ slots).map _).sum_le_sum fun _ _ => Nat.zero_le _) 1

theorem size_targets (offset : Nat) (destinations : List CodeTarget) :
    (targets offset destinations).size = 4 * destinations.length := by
  rw [targets, size_concat_map]
  simp [size_target, Nat.mul_comm]

theorem size_dense (offset : Nat) {destinations : List CodeTarget}
    (h : destinations.length ≤ 0xffff) :
    (targetTable offset span (((List.range destinations.length).map Int32.ofNat).zip
      destinations)).size = 2 + 4 * destinations.length := by
  have hentries : (destinations.map fun destination => (target 0 destination).size).sum =
      4 * destinations.length := by
    simp [size_target, Nat.mul_comm]
  rw [size, CodeReader.bytes_dense offset h, List.length_append, length_littleEndian,
    List.length_flatMap, ← hentries]
  rfl

end Piece

namespace CodeReader

/-- What is taken for a slot. -/
theorem spends_slot (place : Slot) : Spends (slot place) OperandValue.leastSize := by
  cases place with
  | number =>
      exact spends_number.map Number.read_answers _ fun value hvalue =>
        (Piece.size_number_of_form hvalue).le
  | register => exact spends_register.map (answers_true _) _ fun _ _ => (Piece.size_u16 _).le
  | byte | flag => exact spends_u8.map (answers_true _) _ fun _ _ => Nat.le_refl 1
  | messageId =>
      exact (spends_littleEndian 3).map (answers_true _) _ fun _ _ => (length_littleEndian 3 _).le
  | string =>
      refine (spends_littleEndian 2).bind fun length => (spends_bytes length).map (answers_true _)
        (fun text => OperandValue.string (dropTerminator text)) fun text _ => ?_
      have hle : (dropTerminator text).length ≤ text.length := by
        rw [dropTerminator]
        split
        · exact List.length_dropLast ▸ Nat.sub_le ..
        · exact Nat.le_refl _
      rw [OperandValue.leastSize]
      omega
  | numberList =>
      refine spends_u8.bind fun count => (spends_many spends_number _).map
        (many_all Number.read_answers _) _ fun values hvalues => ?_
      simp only [OperandValue.leastSize, Piece.operand, Piece.size_append, Piece.size_u8,
        Piece.size_concat_numbers hvalues, Nat.add_sub_cancel_left, Nat.le_refl]
  | registerList =>
      refine spends_u8.bind fun count => (spends_many spends_register _).map (answers_true _) _
        fun values _ => ?_
      simp [OperandValue.leastSize, Piece.operand, Piece.size, List.length_flatMap,
        length_littleEndian]
  | bitmask =>
      have hslots (mask : UInt8) := mapM_answers fun index
        (_ : index ∈ List.range Instruction.bitmaskSlots) => bitmaskSlot_answers mask index
      refine spends_u8.bind fun mask => (spends_mapM _ (spends_bitmaskSlot mask)).map (hslots mask)
        _ fun values hvalues => ?_
      have hle := @Piece.size_bitmask_le .origin _ (forall_of_forall₂ hvalues)
      simp only [OperandValue.leastSize, Piece.operand]
      omega
  | target =>
      exact spends_target.map (answers_true _)
        (fun destination => OperandValue.target [destination])
        fun destination _ => (Piece.size_targets 0 [destination]).le
  | targetTable =>
      refine (spends_littleEndian 2).follow (littleEndian_lt 2) fun count hcount => ?_
      refine (spends_many spends_target count).map (many_length target count) _
        fun destinations hlength => ?_
      subst hlength
      have hsize := @Piece.size_dense .origin 0 _
        (show destinations.length ≤ 0xffff by omega)
      simp only [OperandValue.leastSize, Piece.operand, hsize]
      simp [Nat.mul_comm]
  | paddedTable =>
      refine (spends_littleEndian 2).bind fun count => (spends_many spends_paddedNumber count).map
        (many_all paddedNumber_answers count) _ fun values hvalues => ?_
      simp only [OperandValue.leastSize, Piece.operand, Piece.size_append, Piece.size_u16,
        Piece.size_concat_padded hvalues, Nat.add_sub_cancel_left, Nat.le_refl]
  | expression =>
      refine spends_terms.map terms_answers _ fun terms hterms => ?_
      obtain ⟨_, rfl, -, hnumbers⟩ := hterms
      simp only [OperandValue.leastSize, Piece.operand, Piece.size_append, Piece.size_u8,
        Piece.size_concat_terms hnumbers, Nat.le_refl]
  | byteList => exact spends_pure rfl

theorem spends_operands (slots : List Slot) :
    Spends (operands slots) fun operands => (operands.map (·.value.leastSize)).sum :=
  spends_mapM slots fun place =>
    (spends_slot place).map (answers_true _) (fun value => Operand.mk value .origin)
      fun _ _ => Nat.le_refl _

theorem spends_typeByte (opcode : UInt8) (form : Form) :
    Spends (typeByte opcode form) fun _ => if form.layout == .plain then 0 else 1 := by
  rw [typeByte]
  cases form.layout with
  | plain => exact spends_pure rfl
  | typedOptional =>
      refine spends_u8.bind fun subtype => ?_
      split
      · exact spends_fail _ _ _
      · split <;> exact spends_pure rfl
  | conditional =>
      have hread : Spends condition fun _ => 1 := by
        refine spends_u8.bind fun subtype => ?_
        split
        · exact spends_pure rfl
        · exact spends_fail _ _ _
      exact hread.map (answers_true _) _ fun _ _ => Nat.le_refl _

/-- An instruction takes what stands before its operands, and what these cost. -/
theorem spends_instruction : Spends instruction fun found =>
    ((Form.ofOpcode? found.opcode found.subtype).elim 0 fun form => (Piece.head form found).size) +
      (found.operands.map (·.value.leastSize)).sum := by
  refine spends_u8.bind fun opcode => ?_
  split
  · exact spends_fail _ _ _
  · split
    · exact spends_fail _ _ _
    · rename_i first hfirst
      refine (spends_typeByte opcode first).follow (typeByte_answers hfirst)
        fun answer hanswer => ?_
      obtain ⟨row, hrow, -, -⟩ := hanswer
      refine (spends_operands _).map (answers_true _) _ fun operands _ => ?_
      have hlayout : row.layout = first.layout :=
        Form.layout_of_opcode (Form.of_ofOpcode? hfirst).1 (Form.of_ofOpcode? hrow).1
          ((Form.of_ofOpcode? hrow).2.trans (Form.of_ofOpcode? hfirst).2.symm)
      have hhead := Piece.size_head_le row ⟨⟨opcode.toUInt16⟩, answer.1, operands, .origin⟩
      rw [hlayout] at hhead
      simp only [hrow, Option.elim_some]
      omega

end CodeReader

namespace OperandValue

/-- The length of the text that a value holds. -/
def textSize : OperandValue → Nat
  | .string text => text.length
  | _ => 0

/-- What a text that is too long to be stored is longer than all that can stand beside it. -/
def excess (value : OperandValue) : Nat :=
  if Piece.stringLimit < value.textSize then 0xffff else 0

end OperandValue

namespace Piece

/-- What is read is encoded in as many bytes as it costs, unless it is a text. -/
theorem size_operand {place : Slot} {value : OperandValue} (hholds : place.Holds value)
    (hlinked : value.IsLinked) (htext : ∀ text, value ≠ .string text) (offset : Nat) :
    (operand offset ⟨value, .origin⟩).size = value.leastSize := by
  cases value with
  | string text => exact absurd rfl (htext text)
  | target destinations => exact (size_targets offset _).trans (size_targets 0 _).symm
  | targetTable keys destinations =>
      obtain ⟨-, rfl⟩ := hlinked
      have hcount := hholds.length_le
      exact (size_dense offset hcount).trans (size_dense 0 hcount).symm
  | _ => rfl

/-- A terminator is a byte more, and a text without room for one leaves no bytes. -/
theorem size_operand_le {place : Slot} {value : OperandValue} (hholds : place.Holds value)
    (hlinked : value.IsLinked) (offset : Nat) :
    (operand offset ⟨value, .origin⟩).size + value.excess ≤ value.leastSize + 1 := by
  cases hvalue : value with
  | string text =>
      change (Piece.string .origin text).size + (if stringLimit < text.length then 0xffff else 0) ≤
        2 + text.length + 1
      by_cases hlong : stringLimit < text.length
      · rw [if_pos hlong, Piece.string, if_pos hlong]
        rw [stringLimit] at hlong
        change 0 + 0xffff ≤ 2 + text.length + 1
        omega
      · rw [if_neg hlong, Piece.string, if_neg hlong, size_append, size_u16]
        simp [size]
        omega
  | _ =>
      have htext (text : Bytes) : value ≠ .string text := by simp [hvalue]
      subst hvalue
      exact Nat.le_succ_of_le (size_operand hholds hlinked htext offset).le

/-- Bounds of operands, one by one, add up. -/
theorem size_operands_le {values : List Operand} (more bound : Operand → Nat)
    (h : ∀ value ∈ values, ∀ offset, (operand offset value).size + more value ≤ bound value)
    (offset : Nat) :
    (operands offset values).size + (values.map more).sum ≤ (values.map bound).sum := by
  induction values generalizing offset with
  | nil => exact Nat.le_refl _
  | cons first rest ih =>
      obtain ⟨hfirst, hrest⟩ := List.forall_mem_cons.mp h
      have hone := hfirst offset
      have hothers := ih hrest (offset + (operand offset first).size)
      rw [operands]
      simp only [size_append, List.map_cons, List.sum_cons] at hothers ⊢
      omega

theorem instruction_of_row {instruction : Instruction} {form : Form} (h : instruction.OfForm form)
    (offset : Nat) : Piece.instruction offset instruction =
      head form instruction ++ operands (offset + (head form instruction).size)
        instruction.operands := by
  obtain ⟨hrow, hopcode⟩ := Form.of_ofOpcode? h.row
  have hselect : ¬ (instruction.opcode == .select) = true := by
    rw [beq_iff_eq, ← hopcode]
    exact ofOpcode?_select form hrow
  rw [Piece.instruction, h.row]
  simp only [if_neg hselect]

end Piece

/-- No row has many slots. -/
theorem Form.table_brief : ∀ form ∈ Form.table, form.slots.length ≤ 16 := by
  decide +kernel

namespace Instruction

variable {instruction : Instruction} {form : Form}

theorem OfForm.exists_slot (h : instruction.OfForm form) {operand : Operand}
    (hoperand : operand ∈ instruction.operands) :
    ∃ place ∈ form.slotsFor instruction.subtype, place.Holds operand.value := by
  obtain ⟨index, hindex, rfl⟩ := List.mem_iff_getElem.mp hoperand
  have hlength := h.operands.length_eq
  exact ⟨_, List.getElem_mem (hlength ▸ hindex), h.operands.get (hlength ▸ hindex) hindex⟩

/-- How many bytes an instruction is read from at least. -/
def leastSize (instruction : Instruction) (form : Form) : Nat :=
  (Piece.head form instruction).size + (instruction.operands.map (·.value.leastSize)).sum

theorem IsDecoded.operand_eq (h : instruction.IsDecoded form) {operand : Operand}
    (hoperand : operand ∈ instruction.operands) :
    operand = ⟨operand.value, .origin⟩ ∧ operand.value.IsLinked ∧
      ∃ place : Slot, place.Holds operand.value := by
  obtain ⟨hlinked, hspan⟩ := h.linked.operands operand hoperand
  obtain ⟨place, -, hholds⟩ := h.form.exists_slot hoperand
  exact ⟨by rw [← hspan], hlinked, place, hholds⟩

/-- Without texts, what is decoded is encoded in no more bytes than it takes. -/
theorem IsDecoded.size_le (h : instruction.IsDecoded form)
    (htexts : ∀ operand ∈ instruction.operands, ∀ text, operand.value ≠ .string text) :
    (Piece.instruction 0 instruction).size ≤ instruction.leastSize form := by
  have hoperands := Piece.size_operands_le (fun _ => 0) (·.value.leastSize)
    (fun operand hoperand offset => by
      obtain ⟨hspan, hlinked, place, hholds⟩ := h.operand_eq hoperand
      rw [hspan]
      exact (Piece.size_operand hholds hlinked (htexts operand hoperand) offset).le)
    (0 + (Piece.head form instruction).size)
  rw [Piece.instruction_of_row h.form, Piece.size_append, leastSize]
  exact Nat.add_le_add_left (Nat.le_trans (Nat.le_add_right _ _) hoperands) _

/-- Texts of an instruction that is encoded in as many bytes as it takes can be stored. -/
theorem IsDecoded.textSize_le (h : instruction.IsDecoded form)
    (hsize : instruction.leastSize form ≤ (Piece.instruction 0 instruction).size) :
    ∀ operand ∈ instruction.operands, operand.value.textSize ≤ Piece.stringLimit := by
  intro operand hoperand
  by_contra hlong
  have hexcess : operand.value.excess = 0xffff := if_pos (Nat.not_le.mp hlong)
  have hmem := List.le_sum_of_mem (List.mem_map_of_mem (f := (·.value.excess)) hoperand)
  have hoperands := Piece.size_operands_le (·.value.excess)
    (fun operand => operand.value.leastSize + 1)
    (fun operand hoperand offset => by
      obtain ⟨hspan, hlinked, place, hholds⟩ := h.operand_eq hoperand
      rw [hspan]
      exact Piece.size_operand_le hholds hlinked offset)
    (0 + (Piece.head form instruction).size)
  have hcount : instruction.operands.length ≤ 16 := by
    rw [← h.form.operands.length_eq]
    exact Nat.le_trans (Form.slotsFor_sublist form _).length_le
      (Form.table_brief form (Form.of_ofOpcode? h.form.row).1)
  have hsum (operands : List Operand) :
      (operands.map fun operand => operand.value.leastSize + 1).sum =
        (operands.map (·.value.leastSize)).sum + operands.length := by
    induction operands with
    | nil => rfl
    | cons first rest ih =>
        simp only [List.map_cons, List.sum_cons, List.length_cons, ih]
        omega
  rw [Piece.instruction_of_row h.form, Piece.size_append, leastSize] at hsize
  rw [hsum] at hoperands
  omega

/-- An instruction whose texts can be stored can be encoded. -/
theorem IsDecoded.isEncodable (h : instruction.IsDecoded form)
    (htexts : ∀ operand ∈ instruction.operands, operand.value.textSize ≤ Piece.stringLimit) :
    instruction.IsEncodable form := by
  refine ⟨h.form, h.opcode, fun operand hoperand => ⟨h.numbers operand hoperand, ?_,
    h.counts operand hoperand, ?_⟩⟩
  · intro destination hdestination
    have hlinked := (h.linked.operands operand hoperand).1
    cases hvalue : operand.value with
    | target destinations =>
        rw [hvalue] at hlinked hdestination
        obtain ⟨address, rfl⟩ := hlinked destination hdestination
        exact ⟨address, rfl⟩
    | targetTable keys destinations =>
        rw [hvalue] at hlinked hdestination
        obtain ⟨address, rfl⟩ := hlinked.1 destination hdestination
        exact ⟨address, rfl⟩
    | _ =>
        rw [hvalue] at hdestination
        cases hdestination
  · have hlinked := (h.linked.operands operand hoperand).1
    cases hvalue : operand.value with
    | string text =>
        have hshort := htexts operand hoperand
        rwa [hvalue] at hshort
    | targetTable keys destinations =>
        obtain ⟨place, -, hholds⟩ := h.form.exists_slot hoperand
        rw [hvalue] at hlinked hholds
        obtain ⟨-, rfl⟩ := hlinked
        exact ⟨hholds.length_le, rfl⟩
    | _ => trivial

end Instruction

namespace DecodedInstruction

variable {code : Bytes} {decoded : DecodedInstruction}

/-- What is decoded takes as many bytes as it costs. -/
theorem leastSize_le_of_read (h : read code = .ok decoded) {form : Form}
    (hform : decoded.instruction.OfForm form) :
    decoded.instruction.leastSize form ≤ decoded.size := by
  rw [read] at h
  split at h
  · rename_i instruction state hrun
    cases h
    have hspent := CodeReader.spends_instruction _ _ _ hrun
    have hrow : Form.ofOpcode? instruction.opcode instruction.subtype = some form := hform.row
    simp only [hrow, Option.elim_some, Nat.zero_add] at hspent
    exact hspent
  · cases h

/-- What is decoded can be encoded, if that gives as many bytes as were taken. -/
theorem exists_isEncodable (h : read code = .ok decoded)
    (hsize : (Piece.instruction 0 decoded.instruction).size = decoded.size) :
    ∃ form, decoded.instruction.IsDecoded form ∧ decoded.instruction.IsEncodable form := by
  obtain ⟨form, hdecoded⟩ := exists_isDecoded h
  exact ⟨form, hdecoded, hdecoded.isEncodable
    (hdecoded.textSize_le (hsize ▸ leastSize_le_of_read h hdecoded.form))⟩

end DecodedInstruction

end NovelAsm
