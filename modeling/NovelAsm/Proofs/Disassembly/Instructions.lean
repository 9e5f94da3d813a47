import NovelAsm.Proofs.Disassembly.Lines

/-!
Instructions as printed lines. The operands of an instruction are printed one by one: a list
becomes as many operands as it has items, a flag is written only if its value is not the normal
one, and the two numbers of a conditional jump become one formula. So the text of an instruction
that belongs to a row of the table is that of a line.
-/

namespace NovelAsm

open Lexed NovelAsm.Parser

theorem commaJoin_cons {texts : List Bytes} (first : Bytes) (hne : texts ≠ []) :
    commaJoin (first :: texts) = first ++ ascii ", " ++ commaJoin texts := by
  cases texts with
  | nil => exact absurd rfl hne
  | cons second rest => rfl

/-- Texts that are joined in groups are joined. -/
theorem commaJoin_append {texts others : List Bytes} (hne : texts ≠ []) (hothers : others ≠ []) :
    commaJoin (texts ++ others) = commaJoin texts ++ ascii ", " ++ commaJoin others := by
  induction texts with
  | nil => exact absurd rfl hne
  | cons first rest ih =>
      rw [List.cons_append, commaJoin_cons first (List.append_ne_nil_of_right_ne_nil rest hothers)]
      cases rest with
      | nil => rfl
      | cons second rest =>
          rw [ih (List.cons_ne_nil _ _), commaJoin_cons first (List.cons_ne_nil _ _)]
          simp only [List.append_assoc]

theorem commaJoin_flatten (groups : List (List Bytes)) :
    commaJoin groups.flatten = commaJoin ((groups.filter (!·.isEmpty)).map commaJoin) := by
  induction groups with
  | nil => rfl
  | cons group rest ih =>
      rw [List.flatten_cons, List.filter_cons]
      cases group with
      | nil => exact ih
      | cons first more =>
          rw [if_pos (show (!(first :: more).isEmpty) = true from rfl), List.map_cons]
          by_cases hrest : rest.flatten = []
          · have hfilter : rest.filter (!·.isEmpty) = [] :=
              List.filter_eq_nil_iff.mpr fun other hother => by
                simp [List.flatten_eq_nil_iff.mp hrest other hother]
            rw [hrest, hfilter, List.append_nil]
            rfl
          · have hfilter : (rest.filter (!·.isEmpty)).map commaJoin ≠ [] := by
              rw [Ne, List.map_eq_nil_iff, List.filter_eq_nil_iff]
              intro hempty
              exact hrest (List.flatten_eq_nil_iff.mpr fun other hother => by
                simpa using hempty other hother)
            rw [commaJoin_append (List.cons_ne_nil _ _) hrest, ih, commaJoin_cons _ hfilter]

namespace OperandValue

/-- The cases of a table. A case without a key has its position for one. -/
def tableCases (keys : List Int32) (destinations : List CodeTarget) : List (Int × Place) :=
  destinations.zipIdx.map fun (destination, index) =>
    ((keys[index]?.map Int32.toInt).getD index, destination.place)

/-- The operands that are printed for a value, flags apart. -/
inductive PrintsAs : OperandValue → List PrintedOperand → Prop
  | number (value : Number) : PrintsAs (.number value) [.number value]
  | register (source : Register) : PrintsAs (.register source) [.register source]
  | byte (value : UInt32) : PrintsAs (.byte value) [.unsigned value]
  | flag (value : UInt32) : PrintsAs (.flag value) []
  | messageId (value : UInt32) : PrintsAs (.messageId value) [.unsigned value]
  | string (text : Bytes) : PrintsAs (.string text) [.text text]
  | numberList (values : List Number) : PrintsAs (.numberList values) (values.map .number)
  | registerList (values : List Register) : PrintsAs (.registerList values) (values.map .register)
  | bitmask (slots : List Number) : PrintsAs (.bitmask slots) [.array (usedSlots slots)]
  | target (destination : CodeTarget) : PrintsAs (.target [destination]) [.place destination.place]
  | targetTable (keys : List Int32) (destinations : List CodeTarget) :
      PrintsAs (.targetTable keys destinations) [.table (tableCases keys destinations)]
  | paddedTable (values : List Number) : PrintsAs (.paddedTable values) [.array values]
  | expression (formula : Formula) : PrintsAs (.expression formula.terms) [.formula formula]
  | byteList (first : UInt8) (rest : Bytes) :
      PrintsAs (.byteList (first :: rest)) ((first :: rest).map .rawByte)

variable {value : OperandValue} {printed : List PrintedOperand}

/-- Every value that a row asks for can be printed. -/
theorem exists_printsAs {place : Slot} (h : place.Holds value) (hbytes : value ≠ .byteList []) :
    ∃ printed, value.PrintsAs printed := by
  cases value with
  | number value => exact ⟨_, .number value⟩
  | register source => exact ⟨_, .register source⟩
  | byte value => exact ⟨_, .byte value⟩
  | flag value => exact ⟨_, .flag value⟩
  | messageId value => exact ⟨_, .messageId value⟩
  | string text => exact ⟨_, .string text⟩
  | numberList values => exact ⟨_, .numberList values⟩
  | registerList values => exact ⟨_, .registerList values⟩
  | bitmask slots => exact ⟨_, .bitmask slots⟩
  | target destinations =>
      cases place <;> first | exact h.elim | skip
      obtain ⟨destination, rfl⟩ := List.length_eq_one_iff.mp h
      exact ⟨_, .target destination⟩
  | targetTable keys destinations => exact ⟨_, .targetTable keys destinations⟩
  | paddedTable values => exact ⟨_, .paddedTable values⟩
  | expression terms =>
      cases place <;> first | exact h.elim | skip
      obtain ⟨formula, rfl⟩ := Formula.exists_terms h
      exact ⟨_, .expression formula⟩
  | byteList bytes =>
      cases bytes with
      | nil => exact absurd rfl hbytes
      | cons first rest => exact ⟨_, .byteList first rest⟩

theorem caseTexts_eq (keys : List Int32) (destinations : List CodeTarget) :
    caseTexts keys destinations =
      (tableCases keys destinations).map PrintedOperand.caseText := by
  rw [caseTexts, tableCases, List.map_map]
  rfl

theorem text_targetTable (keys : List Int32) (destinations : List CodeTarget) :
    (OperandValue.targetTable keys destinations).text =
      (PrintedOperand.table (tableCases keys destinations)).shown := by
  cases destinations with
  | nil => rfl
  | cons first rest =>
      rw [OperandValue.text, caseTexts_eq]
      · rfl
      · exact fun h => by cases h

/-- What is printed for a value is its text. -/
theorem PrintsAs.positionalText? (h : value.PrintsAs printed) :
    Instruction.positionalText? value =
      if printed.isEmpty then none else some (commaJoin (printed.map PrintedOperand.shown)) := by
  cases h with
  | numberList values =>
      cases values with
      | nil => rfl
      | cons first rest =>
          rw [List.map_map]
          rfl
  | registerList values =>
      cases values with
      | nil => rfl
      | cons first rest =>
          rw [List.map_map]
          rfl
  | byteList first rest =>
      rw [List.map_map]
      rfl
  | expression formula =>
      have htext : (OperandValue.expression formula.terms).text = formula.fragment.text := by
        rw [OperandValue.text, Formula.expression?_terms]
        rfl
      exact congrArg some htext
  | targetTable keys destinations => exact congrArg some (text_targetTable keys destinations)
  | number | register | byte | flag | messageId | string | bitmask | target | paddedTable => rfl

/-- A value that can be read again once it is printed. -/
def IsLegible : OperandValue → Prop
  | .string text => NovelAsm.byte '\n' ∉ text ∧ NovelAsm.byte '\r' ∉ text
  | .target destinations | .targetTable _ destinations =>
      ∀ destination ∈ destinations, destination.place.IsNamed
  | _ => True

theorem PrintsAs.isLegible (h : value.PrintsAs printed) (hvalue : value.IsLegible) :
    ∀ operand ∈ printed, operand.IsLegible := by
  cases h with
  | string text => exact List.forall_mem_singleton.mpr hvalue
  | target destination =>
      exact List.forall_mem_singleton.mpr (hvalue destination (List.mem_singleton_self _))
  | targetTable keys destinations =>
      refine List.forall_mem_singleton.mpr fun entry hentry => ?_
      obtain ⟨⟨destination, index⟩, hmem, rfl⟩ := List.mem_map.mp hentry
      exact hvalue destination (List.fst_mem_of_mem_zipIdx hmem)
  | numberList | registerList | byteList => exact List.forall_mem_map.mpr fun _ _ => trivial
  | flag => exact List.forall_mem_nil _
  | _ => exact List.forall_mem_singleton.mpr trivial

theorem PrintsAs.isFlag_eq_false (h : value.PrintsAs printed) :
    ∀ operand ∈ printed, operand.isFlag = false := by
  cases h <;> simp [PrintedOperand.isFlag]

end OperandValue

namespace Instruction

/-- The flag that is printed for a value, if it is not the normal one of its row. -/
def flagName? (form : Form) : OperandValue → Option Flag
  | .flag value =>
      match form.slots.reverse.find? Slot.isFlag with
      | some (.flag name normal) => if value == normal.toUInt32 then none else some name
      | _ => none
  | _ => none

theorem flagText?_eq (form : Form) (value : OperandValue) :
    flagText? form value = (flagName? form value).map fun name => ascii name.text := by
  cases value with
  | flag value =>
      simp only [flagText?, flagName?]
      cases form.slots.reverse.find? Slot.isFlag with
      | none => rfl
      | some place =>
          cases place with
          | flag name normal =>
              dsimp only
              split <;> rfl
          | _ => rfl
  | _ => rfl

end Instruction

namespace Condition

/-- The operator that a condition is written with. -/
def mark : Condition → Operator
  | .equal => .equal
  | .notEqual => .notEqual
  | .greaterEqual => .greaterEqual
  | .greater => .greater
  | .lessEqual => .lessEqual
  | .less => .less
  | .masked | .bitSet => .bitAnd

theorem arity_mark (condition : Condition) : condition.mark.arity = 2 := by
  cases condition <;> rfl

/-- The second operand of a condition as it is written: a bit as the mask that it selects. -/
def operand (condition : Condition) (right : Number) : Formula :=
  if condition = .bitSet then .binary .shiftLeft rfl (.number (.constant 1)) (.number right)
  else .number right

/-- A condition on two numbers as it is written. -/
def formula (condition : Condition) (negated : Bool) (left right : Number) : Formula :=
  let comparison : Formula :=
    .binary condition.mark condition.arity_mark (.number left) (condition.operand right)
  if negated then .unary .isZero rfl comparison else comparison

theorem text_formula {subtype : UInt8} {condition : Condition}
    (h : Condition.ofCode? (subtype &&& ~~~Instruction.negatedBit) = some condition)
    (left right : Number) :
    (condition.formula (subtype &&& Instruction.negatedBit != 0) left right).fragment.text =
      Instruction.conditionText subtype left.text right.text := by
  have hcomparison : (Formula.binary condition.mark condition.arity_mark (.number left)
      (condition.operand right)).fragment =
        ⟨if condition == .bitSet then left.text ++ ascii " & (1 << " ++ right.text ++ ascii ")"
          else left.text ++ ascii " " ++ ascii condition.operator ++ ascii " " ++ right.text,
          true⟩ := by
    have hone : (Number.constant 1).text = ascii "1" := by decide
    cases condition with
    | bitSet =>
        simp [operand, mark, Formula.fragment, Fragment.ofOperator, Operator.fixity, Bytes.join,
          Fragment.wrapped, hone, ascii]
    | _ =>
        simp [operand, mark, Formula.fragment, Fragment.ofOperator, Operator.fixity, Bytes.join,
          Fragment.wrapped, Condition.operator]
  rw [Instruction.conditionText, h, formula]
  split
  · change (Fragment.ofOperator .isZero [Formula.fragment _]).text = _
    rw [hcomparison]
    simp [Fragment.ofOperator, Operator.fixity, Fragment.wrapped, ascii]
  · rw [hcomparison]
    simp

end Condition

namespace Instruction

/-- The operands that are printed for an instruction of a row. -/
inductive PrintsAs (form : Form) (instruction : Instruction) : List PrintedOperand → Prop
  | positional {pieces : List (List PrintedOperand)} (hlayout : form.layout ≠ .conditional)
      (h : List.Forall₂ OperandValue.PrintsAs (instruction.operands.map Operand.value) pieces) :
      PrintsAs form instruction (pieces.flatten ++
        ((instruction.operands.map Operand.value).filterMap (flagName? form)).map .flag)
  | conditional {condition : Condition} {left right : Number} {destination : CodeTarget}
      (hlayout : form.layout = .conditional)
      (hcondition : Condition.ofCode? (instruction.subtype &&& ~~~negatedBit) = some condition)
      (hoperands : instruction.operands.map Operand.value =
        [.number left, .number right, .target [destination]]) :
      PrintsAs form instruction
        [.formula (condition.formula (instruction.subtype &&& negatedBit != 0) left right),
          .place destination.place]

theorem exists_pieces {slots : List Slot} {values : List OperandValue}
    (h : List.Forall₂ Slot.Holds slots values) (hbytes : ∀ value ∈ values, value ≠ .byteList []) :
    ∃ pieces, List.Forall₂ OperandValue.PrintsAs values pieces := by
  induction h with
  | nil => exact ⟨[], .nil⟩
  | cons hfirst _ ih =>
      rw [List.forall_mem_cons] at hbytes
      obtain ⟨printed, hprinted⟩ := OperandValue.exists_printsAs hfirst hbytes.1
      obtain ⟨pieces, hpieces⟩ := ih hbytes.2
      exact ⟨printed :: pieces, .cons hprinted hpieces⟩

theorem exists_of_holds_number {value : OperandValue} (h : Slot.number.Holds value) :
    ∃ number, value = .number number := by
  cases value with
  | number value => exact ⟨value, rfl⟩
  | _ => exact h.elim

theorem exists_of_holds_target {value : OperandValue} (h : Slot.target.Holds value) :
    ∃ destination, value = .target [destination] := by
  cases value with
  | target destinations =>
      obtain ⟨destination, rfl⟩ := List.length_eq_one_iff.mp h
      exact ⟨destination, rfl⟩
  | _ => exact h.elim

theorem slots_of_conditional : ∀ form ∈ Form.table, form.layout = .conditional →
    form.slots = [.number, .number, .target] := by decide +kernel

variable {form : Form} {instruction : Instruction} {operands : List PrintedOperand}

/-- What a conditional jump jumps on. -/
theorem OfForm.exists_condition (h : instruction.OfForm form)
    (hlayout : form.layout = .conditional) :
    ∃ condition left right destination,
      Condition.ofCode? (instruction.subtype &&& ~~~negatedBit) = some condition ∧
        instruction.operands.map Operand.value =
          [.number left, .number right, .target [destination]] := by
  have hsubtype := h.subtype
  rw [Form.TakesSubtype, hlayout] at hsubtype
  obtain ⟨condition, hcondition⟩ := Option.isSome_iff_exists.mp hsubtype
  have hslots : form.slotsFor instruction.subtype = [.number, .number, .target] := by
    rw [Form.slotsFor, hlayout, slots_of_conditional form (Form.of_ofOpcode? h.row).1 hlayout]
    rfl
  have hoperands := h.operands
  rw [hslots] at hoperands
  have hvalues : List.Forall₂ Slot.Holds [.number, .number, .target]
      (instruction.operands.map Operand.value) := List.forall₂_map_right_iff.mpr hoperands
  revert hvalues
  generalize instruction.operands.map Operand.value = values
  rintro (_ | ⟨hleft, _ | ⟨hright, _ | ⟨htarget, ⟨⟩⟩⟩⟩)
  obtain ⟨left, rfl⟩ := exists_of_holds_number hleft
  obtain ⟨right, rfl⟩ := exists_of_holds_number hright
  obtain ⟨destination, rfl⟩ := exists_of_holds_target htarget
  exact ⟨condition, left, right, destination, hcondition, rfl⟩

/-- Every instruction of a row can be printed, unless it stands for no raw bytes. -/
theorem OfForm.exists_printsAs (h : instruction.OfForm form)
    (hbytes : ∀ operand ∈ instruction.operands, operand.value ≠ .byteList []) :
    ∃ operands, instruction.PrintsAs form operands := by
  by_cases hlayout : form.layout = .conditional
  · obtain ⟨condition, left, right, destination, hcondition, hoperands⟩ :=
      h.exists_condition hlayout
    exact ⟨_, .conditional hlayout hcondition hoperands⟩
  · have hvalues : List.Forall₂ Slot.Holds (form.slotsFor instruction.subtype)
        (instruction.operands.map Operand.value) := List.forall₂_map_right_iff.mpr h.operands
    obtain ⟨pieces, hpieces⟩ := exists_pieces hvalues (List.forall_mem_map.mpr hbytes)
    exact ⟨_, .positional hlayout hpieces⟩

theorem positionalTexts {values : List OperandValue} {pieces : List (List PrintedOperand)}
    (h : List.Forall₂ OperandValue.PrintsAs values pieces) :
    values.filterMap positionalText? =
      ((pieces.map (List.map PrintedOperand.shown)).filter (!·.isEmpty)).map commaJoin := by
  induction h with
  | nil => rfl
  | @cons value printed _ _ hfirst _ ih =>
      rw [List.filterMap_cons, hfirst.positionalText?, ih, List.map_cons, List.filter_cons]
      cases printed with
      | nil => rfl
      | cons operand more => rfl

theorem lineText_flatten (mnemonic : Bytes) (groups : List (List Bytes)) :
    lineText mnemonic ((groups.filter (!·.isEmpty)).map commaJoin) =
      lineText mnemonic groups.flatten := by
  have hempty : ((groups.filter (!·.isEmpty)).map commaJoin).isEmpty = groups.flatten.isEmpty := by
    rw [Bool.eq_iff_iff]
    simp [List.filter_eq_nil_iff, List.flatten_eq_nil_iff]
  rw [lineText, lineText, hempty, commaJoin_flatten]

theorem text_of_positional (hform : Form.ofInstruction? instruction = some form)
    (hlayout : form.layout ≠ .conditional) :
    instruction.text = lineText (ascii form.mnemonic) (operandTexts form instruction) := by
  rw [Instruction.text, hform]
  dsimp only
  split
  · rename_i h
    exact absurd h hlayout
  · rw [lineText]
    cases operandTexts form instruction with
    | nil => rfl
    | cons first rest => rfl

theorem flagTexts (form : Form) (values : List OperandValue) :
    values.filterMap (flagText? form) =
      (values.filterMap (flagName? form)).map fun name => ascii name.text := by
  rw [List.map_filterMap]
  exact List.filterMap_congr fun value _ => flagText?_eq form value

/-- An instruction is printed as a line. -/
theorem PrintsAs.text_eq (hform : Form.ofInstruction? instruction = some form)
    (h : instruction.PrintsAs form operands) :
    instruction.text = (PrintedLine.mk form operands).shown := by
  cases h with
  | @conditional condition left right destination hlayout hcondition hoperands =>
      rw [Instruction.text, hform]
      simp only [hlayout]
      obtain ⟨⟨first, firstSpan⟩, ⟨second, secondSpan⟩, ⟨third, thirdSpan⟩, hthree⟩ :
          ∃ first second third, instruction.operands = [first, second, third] := by
        have hlength := congrArg List.length hoperands
        rw [List.length_map] at hlength
        exact List.length_eq_three.mp hlength
      rw [hthree] at hoperands
      simp only [List.map_cons, List.map_nil, List.cons.injEq, and_true] at hoperands
      obtain ⟨rfl, rfl, rfl⟩ := hoperands
      simp only [conditionalText, hthree, OperandValue.conditionNumber, OperandValue.text,
        PrintedLine.shown, PrintedLine.mnemonic, List.map_cons, List.map_nil, PrintedOperand.shown,
        Condition.text_formula hcondition]
      simp [lineText, commaJoin, Bytes.join]
  | @positional pieces hlayout hvalues =>
      generalize hflags : (instruction.operands.map Operand.value).filterMap
        (flagName? form) = flags
      have htexts : operandTexts form instruction =
          ((pieces.map (List.map PrintedOperand.shown) ++
            flags.map fun name => [ascii name.text]).filter (!·.isEmpty)).map commaJoin := by
        have hkeep : (flags.map fun name => [ascii name.text]).filter (!·.isEmpty) =
            flags.map fun name => [ascii name.text] := List.filter_eq_self.mpr (by simp)
        rw [operandTexts, positionalTexts hvalues, flagTexts, hflags, List.filter_append,
          List.map_append, hkeep, List.map_map]
        rfl
      have hshown : (pieces.flatten ++ flags.map PrintedOperand.flag).map PrintedOperand.shown =
          (pieces.map (List.map PrintedOperand.shown) ++
            flags.map fun name => [ascii name.text]).flatten := by
        rw [List.map_append, List.flatten_append, List.map_flatten, List.map_map,
          @List.map_eq_flatMap _ _ (PrintedOperand.shown ∘ PrintedOperand.flag), List.flatMap_def]
        rfl
      rw [text_of_positional hform hlayout, htexts, lineText_flatten, ← hshown]
      rfl

theorem forall_pieces {values : List OperandValue} {pieces : List (List PrintedOperand)}
    {P : PrintedOperand → Prop} (h : List.Forall₂ OperandValue.PrintsAs values pieces)
    (hstep : ∀ value ∈ values, ∀ printed, value.PrintsAs printed → ∀ operand ∈ printed, P operand) :
    ∀ operand ∈ pieces.flatten, P operand := by
  induction h with
  | nil => exact List.forall_mem_nil _
  | cons hfirst _ ih =>
      rw [List.forall_mem_cons] at hstep
      rw [List.flatten_cons]
      exact List.forall_mem_append.mpr ⟨hstep.1 _ hfirst, ih hstep.2⟩

/-- What holds of flags, of formulas and of what is printed for the values of an instruction holds
of all that is printed for it. -/
theorem PrintsAs.forall_mem {P : PrintedOperand → Prop} (h : instruction.PrintsAs form operands)
    (hflag : ∀ name, P (.flag name)) (hformula : ∀ formula, P (.formula formula))
    (hvalues : ∀ operand ∈ instruction.operands, ∀ printed, operand.value.PrintsAs printed →
      ∀ operand ∈ printed, P operand) : ∀ operand ∈ operands, P operand := by
  have hall : ∀ value ∈ instruction.operands.map Operand.value, ∀ printed,
      value.PrintsAs printed → ∀ operand ∈ printed, P operand := List.forall_mem_map.mpr hvalues
  cases h with
  | @conditional condition left right destination hlayout hcondition hoperands =>
      refine List.forall_mem_cons.mpr ⟨hformula _, List.forall_mem_singleton.mpr ?_⟩
      exact hall _ (by simp [hoperands]) _ (.target destination) _ (List.mem_singleton_self _)
  | positional hlayout hprints =>
      exact List.forall_mem_append.mpr ⟨forall_pieces hprints hall,
        List.forall_mem_map.mpr fun name _ => hflag name⟩

/-- Flags are printed last. -/
theorem PrintsAs.flagsLast (h : instruction.PrintsAs form operands) :
    (operands.map PrintedOperand.isFlag).Pairwise (· ≤ ·) := by
  cases h with
  | conditional => exact show List.Pairwise (· ≤ ·) [false, false] by decide
  | @positional pieces hlayout hprints =>
      have hflat : ∀ flag ∈ pieces.flatten.map PrintedOperand.isFlag, flag = false :=
        List.forall_mem_map.mpr (forall_pieces hprints fun value _ printed hprinted =>
          hprinted.isFlag_eq_false)
      have hflags (names : List Flag) :
          ∀ flag ∈ (names.map PrintedOperand.flag).map PrintedOperand.isFlag, flag = true :=
        List.forall_mem_map.mpr (List.forall_mem_map.mpr fun _ _ => rfl)
      rw [List.map_append]
      refine List.pairwise_append.mpr ⟨?_, ?_, fun a ha b hb => ?_⟩
      · exact List.pairwise_of_forall_mem_list fun a ha b _ => hflat a ha ▸ Bool.false_le b
      · exact List.pairwise_of_forall_mem_list fun a _ b hb => hflags _ b hb ▸ Bool.le_true a
      · exact hflat a ha ▸ Bool.false_le b

/-- What is printed for an instruction can be read, if what it is printed from can. -/
theorem PrintsAs.isLegible (hrow : form ∈ Form.table) (h : instruction.PrintsAs form operands)
    (hlegible : ∀ operand ∈ instruction.operands, operand.value.IsLegible) :
    (PrintedLine.mk form operands).IsLegible where
  row := hrow
  operands := h.forall_mem (fun _ => trivial) (fun _ => trivial) fun operand hoperand _ hprinted =>
    hprinted.isLegible (hlegible operand hoperand)
  flagsLast := h.flagsLast

end Instruction

end NovelAsm
