import NovelAsm.Proofs.Code.DecodesBack
import NovelAsm.Proofs.Code.SelfDelimiting

/-!
What decoding answers. An instruction that is read from code has a row in the table and the
operands of that row, with addresses for its places; its lists fit their counts and its numbers
have a form. So a decoded instruction can be encoded again, with one exception: a text that was
stored without a terminator may be too long for one (`DecodedInstruction.exists_isDecoded`).
-/

namespace NovelAsm

namespace CodeReader

variable {α β : Type}

theorem Answers.and {reader : CodeReader α} {P Q : α → Prop} (h : Answers reader P)
    (hother : Answers reader Q) : Answers reader fun value => P value ∧ Q value :=
  fun state value rest hrun => ⟨h state value rest hrun, hother state value rest hrun⟩

theorem Answers.mono {reader : CodeReader α} {P Q : α → Prop} (h : Answers reader P)
    (hle : ∀ value, P value → Q value) : Answers reader Q :=
  fun state value rest hrun => hle value (h state value rest hrun)

theorem Answers.map {reader : CodeReader α} {P : α → Prop} {Q : β → Prop} (change : α → β)
    (h : Answers reader P) (hchange : ∀ value, P value → Q (change value)) :
    Answers (do return change (← reader)) Q :=
  h.bind fun value hvalue => Answers.pure (hchange value hvalue)

theorem collect_all {item : CodeReader α} {P : α → Prop} (h : Answers item P) (count : Nat)
    {taken : List α} (htaken : ∀ value ∈ taken, P value) :
    Answers (collect item count taken) fun values => ∀ value ∈ values, P value := by
  induction count generalizing taken with
  | zero => exact Answers.pure fun value hvalue => htaken value (List.mem_reverse.mp hvalue)
  | succ count ih =>
      exact h.bind fun value hvalue => ih (List.forall_mem_cons.mpr ⟨hvalue, htaken⟩)

theorem many_all {item : CodeReader α} {P : α → Prop} (h : Answers item P) (count : Nat) :
    Answers (many item count) fun values => ∀ value ∈ values, P value :=
  collect_all h count (List.forall_mem_nil _)

theorem mapM_answers {step : α → CodeReader β} {P : α → β → Prop} {items : List α}
    (h : ∀ item ∈ items, Answers (step item) (P item)) :
    Answers (items.mapM step) (List.Forall₂ P items) := by
  induction items with
  | nil => exact Answers.pure .nil
  | cons item rest ih =>
      rw [List.forall_mem_cons] at h
      rw [List.mapM_cons]
      exact h.1.bind fun value hvalue => (ih h.2).bind fun values hvalues =>
        Answers.pure (.cons hvalue hvalues)

theorem forall_of_forall₂ {P : β → Prop} {items : List α} {values : List β}
    (h : List.Forall₂ (fun _ value => P value) items values) : ∀ value ∈ values, P value := by
  induction h with
  | nil => exact List.forall_mem_nil _
  | cons hfirst _ ih => exact List.forall_mem_cons.mpr ⟨hfirst, ih⟩

theorem foldl_bigEndian (bytes : Bytes) (high : Nat) :
    bytes.foldl (fun n b => n * 256 + b.toNat) high < (high + 1) * 256 ^ bytes.length := by
  induction bytes generalizing high with
  | nil => simp
  | cons b rest ih =>
      have hbyte := b.toNat_lt
      rw [List.foldl_cons, List.length_cons, Nat.pow_succ']
      refine Nat.lt_of_lt_of_le (ih _) ?_
      rw [← Nat.mul_assoc]
      exact Nat.mul_le_mul_right _ (by omega)

theorem bigEndian_lt (width : Nat) : Answers (bigEndian width) (· < 256 ^ width) :=
  (many_length u8 width).map _ fun bytes hbytes => by
    have hlt := foldl_bigEndian bytes 0
    rwa [hbytes, Nat.zero_add, Nat.one_mul] at hlt

theorem readTail_lt {high : Nat} (hhigh : high < 16) (more : Nat) :
    Answers (Number.readTail high more) (· < 16 * 256 ^ more) :=
  (bigEndian_lt more).map _ fun value hvalue => by
    have hle : high * 256 ^ more ≤ 15 * 256 ^ more := Nat.mul_le_mul_right _ (by omega)
    change high * 256 ^ more + value < 16 * 256 ^ more
    omega

end CodeReader

namespace Number

open CodeReader

theorem encodeConstant?_isSome {value : Int} (h : fits 28 value = true) :
    (encodeConstant? value).isSome = true := by
  rw [encodeConstant?, h]
  split
  · rfl
  · split
    · rfl
    · split <;> rfl

theorem encode?_ofBits {bits value : Nat} (hbits : 0 < bits) (hle : bits ≤ 28)
    (hvalue : value < 2 ^ bits) : (ofBits bits value).encode?.isSome = true := by
  have hhalf : 2 ^ bits = 2 * 2 ^ (bits - 1) := by
    rw [← Nat.pow_succ', Nat.succ_eq_add_one, Nat.sub_add_cancel hbits]
  have hlimit : 2 ^ (bits - 1) ≤ 2 ^ 27 := Nat.pow_le_pow_right (by decide) (by omega)
  have hbounds : -0x8000000 ≤ ofTwosComplement bits value ∧
      ofTwosComplement bits value < 0x8000000 := by
    simp only [ofTwosComplement, Nat.pow_eq]
    split <;> omega
  obtain ⟨hlow, hhigh⟩ := hbounds
  refine encodeConstant?_isSome ?_
  simp only [Int32.toInt_ofInt_of_le (show -2 ^ 31 ≤ ofTwosComplement bits value by omega)
    (show ofTwosComplement bits value < 2 ^ 31 by omega), fits]
  simp only [Bool.and_eq_true, decide_eq_true_eq]
  exact ⟨hhigh, hlow⟩

theorem encode?_value {raw : Nat} (h : raw < 0x1000) :
    (ofRegister (Register.value? raw)).encode?.isSome = true := by
  rw [Register.value?, dif_pos h]
  simp only [ofRegister, Option.getD_some, encode?, encodeRegister?]
  split <;> rfl

theorem encode?_argument {raw : Nat} (h : raw < 16) :
    (ofRegister (Register.argument? raw)).encode?.isSome = true := by
  rw [Register.argument?, dif_pos (by omega)]
  simp only [ofRegister, Option.getD_some, encode?, encodeRegister?, if_pos h]
  rfl

/-- Every number that is read has a form. -/
theorem read_answers : CodeReader.Answers read fun value => value.encode?.isSome = true := by
  refine CodeReader.Answers.behind fun start => CodeReader.Answers.behind fun first => ?_
  have hhigh : first.toNat % 16 < 16 := Nat.mod_lt _ (by decide)
  have hfirst := first.toNat_lt
  dsimp only
  split
  · exact (readTail_lt hhigh 1).map _ fun value hvalue =>
      encode?_ofBits (by decide) (by decide) hvalue
  · exact (readTail_lt hhigh 2).map _ fun value hvalue =>
      encode?_ofBits (by decide) (by decide) hvalue
  · exact (readTail_lt hhigh 3).map _ fun value hvalue =>
      encode?_ofBits (by decide) (by decide) hvalue
  · exact CodeReader.Answers.pure (encode?_value (by omega))
  · exact (readTail_lt hhigh 1).map (fun raw => ofRegister (Register.value? raw))
      fun value hvalue => encode?_value hvalue
  · exact CodeReader.Answers.pure (encode?_argument hhigh)
  · split
    · exact CodeReader.Answers.pure (encode?_ofBits (by decide) (by decide) (by omega))
    · exact answers_fail _ _

end Number

/-- A value as it is read for a slot: it is one for the slot, its places are addresses, and its
numbers have a form. -/
structure Slot.Decodes (place : Slot) (value : OperandValue) : Prop where
  holds : place.Holds value
  linked : value.IsLinked
  counts : value.CountsFit
  numbers : ∀ number ∈ value.numbers, number.encode?.isSome = true

namespace CodeReader

theorem paddedNumber_answers : Answers paddedNumber fun value => value.encode?.isSome = true :=
  Answers.behind fun _ => Number.read_answers.bind fun _ hvalue => Answers.behind fun _ =>
    Answers.behind fun _ => Answers.pure hvalue

theorem target_answers : Answers target CodeTarget.IsLinked :=
  Answers.behind fun _ => Answers.pure ⟨_, rfl⟩

theorem bitmaskSlot_answers (mask : UInt8) (index : Nat) :
    Answers (bitmaskSlot mask index) fun value => value.encode?.isSome = true := by
  rw [bitmaskSlot]
  split
  · exact Number.read_answers
  · exact Answers.pure (by decide)

/-- The terms behind those that are taken leave one value, and their numbers have a form. -/
def TermsBehind (depth : Nat) (taken terms : List Term) : Prop :=
  ∃ more, terms = taken.reverse ++ more ∧ Term.heightAfter? depth more = some 1 ∧
    ∀ value ∈ more.filterMap Term.number?, value.encode?.isSome = true

theorem termsFrom_answers (start bound depth : Nat) (taken : List Term) :
    Answers (termsFrom start bound depth taken) (TermsBehind depth taken) := by
  induction bound generalizing depth taken with
  | zero => exact Answers.behind fun _ => answers_fail _ _
  | succ bound ih =>
      refine Answers.behind fun offset => Answers.behind fun code => ?_
      split
      · split
        · rename_i hdepth
          rw [beq_iff_eq.mp hdepth]
          exact Answers.pure ⟨[], (List.append_nil _).symm, rfl, List.forall_mem_nil _⟩
        · exact answers_fail _ _
      · split
        · refine Number.read_answers.bind fun number hnumber => (ih _ _).mono ?_
          rintro terms ⟨more, rfl, hheight, hnumbers⟩
          refine ⟨.push number :: more, by simp, hheight, ?_⟩
          exact List.forall_mem_cons.mpr ⟨hnumber, hnumbers⟩
        · split
          · exact answers_fail _ _
          · rename_i operator hoperator
            split
            · exact answers_fail _ _
            · rename_i hdepth
              refine (ih _ _).mono ?_
              rintro terms ⟨more, rfl, hheight, hnumbers⟩
              refine ⟨.apply operator :: more, by simp, ?_, hnumbers⟩
              rw [Term.heightAfter?, if_neg hdepth]
              exact hheight

theorem terms_answers : Answers terms (TermsBehind 0 []) :=
  Answers.behind fun _ => Answers.behind fun _ => termsFrom_answers _ _ _ _

/-- What is read for a slot that stands in code. -/
theorem slot_decodes {place : Slot} (hplace : place ≠ .byteList) :
    Answers (slot place) place.Decodes := by
  suffices Answers (slot place) fun value => place.Holds value ∧ value.IsLinked ∧
      ∀ number ∈ value.numbers, number.encode?.isSome = true from
    (this.and (slot_countsFit place)).mono fun value h => ⟨h.1.1, h.1.2.1, h.2, h.1.2.2⟩
  have hnone (value : OperandValue) (h : value.numbers = []) :
      ∀ number ∈ value.numbers, number.encode?.isSome = true := by
    rw [h]
    exact List.forall_mem_nil _
  cases place with
  | number =>
      exact Number.read_answers.map _ fun value hvalue =>
        ⟨trivial, trivial, List.forall_mem_singleton.mpr hvalue⟩
  | register => exact Answers.behind fun _ => Answers.pure ⟨trivial, trivial, hnone _ rfl⟩
  | byte | flag =>
      refine Answers.behind fun value => Answers.pure ⟨?_, trivial, hnone _ rfl⟩
      simp only [Slot.Holds, UInt8.toNat_toUInt32]
      exact value.toNat_lt
  | messageId =>
      refine Answers.bind (littleEndian_lt 3) fun value hvalue =>
        Answers.pure ⟨?_, trivial, hnone _ rfl⟩
      simp only [Slot.Holds, Nat.toUInt32_eq, UInt32.toNat_ofNat']
      omega
  | string =>
      exact Answers.behind fun _ => Answers.behind fun _ => Answers.pure
        ⟨trivial, trivial, hnone _ rfl⟩
  | numberList =>
      exact Answers.behind fun count => (many_all Number.read_answers _).map _ fun values h =>
        ⟨trivial, trivial, h⟩
  | registerList =>
      exact Answers.behind fun _ => Answers.behind fun _ => Answers.pure
        ⟨trivial, trivial, hnone _ rfl⟩
  | bitmask =>
      refine Answers.behind fun mask => ?_
      have hslots := mapM_answers fun index (_ : index ∈ List.range Instruction.bitmaskSlots) =>
        bitmaskSlot_answers mask index
      refine Answers.bind hslots fun values h => Answers.pure ⟨?_, trivial, ?_⟩
      · rw [Slot.Holds, ← h.length_eq, List.length_range]
      · exact forall_of_forall₂ h
  | target =>
      exact target_answers.map (fun destination => OperandValue.target [destination])
        fun destination h => ⟨rfl, List.forall_mem_singleton.mpr h, hnone _ rfl⟩
  | targetTable =>
      refine Answers.bind (littleEndian_lt 2) fun count hcount => ?_
      refine Answers.bind ((many_all target_answers count).and (many_length target count))
        fun destinations h => Answers.pure ⟨⟨?_, ?_⟩, ⟨h.1, ?_⟩, hnone _ rfl⟩
      · rw [List.length_map, List.length_range, h.2]
      · refine List.forall_mem_map.mpr fun key hkey => ?_
        have hkey := List.mem_range.mp hkey
        rw [toInt_ofNat (by omega)]
        omega
      · rw [h.2]
  | paddedTable =>
      exact Answers.behind fun count => (many_all paddedNumber_answers _).map _ fun values h =>
        ⟨trivial, trivial, h⟩
  | expression =>
      refine terms_answers.map _ fun terms h => ?_
      obtain ⟨more, rfl, hheight, hnumbers⟩ := h
      exact ⟨hheight, trivial, hnumbers⟩
  | byteList => exact absurd rfl hplace

/-- What is read for slots: an operand of no text for each of them. -/
theorem operands_decode {slots : List Slot} (hslots : Slot.byteList ∉ slots) :
    Answers (operands slots) (List.Forall₂ (fun place operand =>
      place.Decodes operand.value ∧ operand.span = .origin) slots) :=
  mapM_answers fun _ hplace => (slot_decodes fun h => hslots (h ▸ hplace)).map _
    fun _ hvalue => ⟨hvalue, rfl⟩

end CodeReader

namespace Form

theorem slotsFor_sublist (form : Form) (subtype : UInt8) :
    (form.slotsFor subtype).Sublist form.slots := by
  rw [slotsFor]
  split
  · exact List.eraseIdx_sublist ..
  · exact List.Sublist.refl _

end Form

namespace CodeReader

/-- What is read between an opcode and the operands is that of a row, with the slots of it. -/
theorem typeByte_answers {code : UInt8} {form : Form}
    (h : Form.ofOpcode? ⟨code.toUInt16⟩ 0 = some form) :
    Answers (typeByte code form) fun answer => ∃ row,
      Form.ofOpcode? ⟨code.toUInt16⟩ answer.1 = some row ∧ row.TakesSubtype answer.1 ∧
        answer.2 = row.slotsFor answer.1 := by
  obtain ⟨hrow, hopcode⟩ := Form.of_ofOpcode? h
  unfold typeByte
  cases hlayout : form.layout with
  | plain =>
      refine Answers.pure ⟨form, h, ?_, ?_⟩
      · rw [Form.TakesSubtype, hlayout]
      · simp [Form.slotsFor, hlayout]
  | conditional =>
      have hplain := Form.ofOpcode?_of_layout h (by rw [hlayout]; decide)
      have hread : Answers condition fun subtype =>
          (Condition.ofCode? (subtype &&& ~~~Instruction.negatedBit)).isSome = true := by
        refine Answers.behind fun subtype => ?_
        split
        · rename_i condition hcondition
          exact Answers.pure (by rw [hcondition]; rfl)
        · exact answers_fail _ _
      refine hread.map _ fun subtype hsubtype => ⟨form, hplain subtype, ?_, ?_⟩
      · rwa [Form.TakesSubtype, hlayout]
      · simp [Form.slotsFor, hlayout]
  | typedOptional =>
      refine Answers.behind fun subtype => ?_
      split
      · exact answers_fail _ _
      · rename_i row hfound
        obtain ⟨hmem, hcode⟩ := Form.of_ofOpcode? hfound
        have htyped : row.layout = .typedOptional :=
          (Form.layout_of_opcode hrow hmem (hcode.trans hopcode.symm)).trans hlayout
        have hselects := List.find?_some hfound
        have hsubtype : row.TakesSubtype subtype := by
          rw [Form.TakesSubtype, htyped]
          simpa [hcode, htyped] using hselects
        split
        · rename_i hbit
          exact Answers.pure ⟨row, hfound, hsubtype, by simp_all [Form.slotsFor]⟩
        · rename_i hbit
          exact Answers.pure ⟨row, hfound, hsubtype, by simp_all [Form.slotsFor]⟩

end CodeReader

/-- An instruction as it is read from code: it has the operands of a row, with addresses for its
places, with lists that fit their counts and with numbers that have a form. -/
structure Instruction.IsDecoded (instruction : Instruction) (form : Form) : Prop where
  form : instruction.OfForm form
  opcode : instruction.opcode ≠ .rawData
  linked : instruction.IsLinked
  counts : instruction.CountsFit
  numbers : ∀ operand ∈ instruction.operands, ∀ number ∈ operand.value.numbers,
    number.encode?.isSome = true

namespace CodeReader

theorem instruction_decodes : Answers instruction fun found => ∃ form, found.IsDecoded form := by
  refine Answers.behind fun opcode => ?_
  split
  · exact answers_fail _ _
  · split
    · exact answers_fail _ _
    · rename_i first hfirst
      refine Answers.bind (typeByte_answers hfirst) fun answer hanswer => ?_
      obtain ⟨subtype, slots⟩ := answer
      obtain ⟨form, hform, hsubtype, hslotsFor⟩ := hanswer
      obtain rfl : slots = form.slotsFor subtype := hslotsFor
      obtain ⟨hrow, hopcode⟩ := Form.of_ofOpcode? hform
      have hraw : (⟨opcode.toUInt16⟩ : Opcode) ≠ .rawData := by
        intro h
        have hlt := opcode.toNat_lt
        have hcode := congrArg (fun opcode => opcode.code.toNat) h
        simp only [UInt8.toNat_toUInt16, Opcode.rawData] at hcode
        change opcode.toNat = 256 at hcode
        omega
      have hslots : Slot.byteList ∉ form.slots :=
        ((Form.table_rows form hrow).resolve_left (hopcode ▸ hraw)).2
      refine Answers.map _ (operands_decode (Form.byteList_notMem_slotsFor subtype hslots))
        fun found hfound => ⟨form, ⟨hform, hsubtype, hfound.imp fun _ _ h => h.1.holds⟩, hraw, ?_,
          ?_, ?_⟩
      all_goals have hall := forall_of_forall₂ (hfound.imp fun _ operand h =>
        (⟨h.1.linked, h.2, h.1.counts, h.1.numbers⟩ : operand.value.IsLinked ∧
          operand.span = .origin ∧ operand.value.CountsFit ∧
            ∀ number ∈ operand.value.numbers, number.encode?.isSome = true))
      · exact ⟨fun operand hoperand =>
          ⟨(hall operand hoperand).1, (hall operand hoperand).2.1⟩, rfl⟩
      · exact fun operand hoperand => (hall operand hoperand).2.2.1
      · exact fun operand hoperand => (hall operand hoperand).2.2.2

end CodeReader

namespace DecodedInstruction

/-- What is decoded is an instruction of a row of the table. -/
theorem exists_isDecoded {code : Bytes} {decoded : DecodedInstruction}
    (h : read code = .ok decoded) : ∃ form, decoded.instruction.IsDecoded form := by
  rw [read] at h
  split at h
  · rename_i instruction state hrun
    cases h
    exact CodeReader.instruction_decodes _ _ _ hrun
  · cases h

end DecodedInstruction

end NovelAsm
