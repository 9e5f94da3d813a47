import NovelAsm.CodeUnit.Lowering
import NovelAsm.Proofs.Expr.Heights

/-!
Lowering makes instructions of the machine. Whatever stands in a source, each instruction
of a code unit has a row in the table and holds the operands of that row: those that
were written, and those that save, restore and return.
-/

namespace NovelAsm

open Reporting

theorem OperandProblem.refuse_finds {α : Type} {P : α → Prop} (problem : OperandProblem)
    (span : Span) : Finds (problem.refuse span) P :=
  Ensures.behind fun _ => finds_none

namespace Expr

theorem toBounded_le (limit : Int) (problem : OperandProblem) (expr : Expr) :
    Finds (expr.toBounded limit problem) fun value =>
      0 ≤ value.toInt ∧ value.toInt ≤ limit := by
  refine Ensures.behind fun computation => ?_
  split
  · exact finds_none
  · split
    · split
      · rename_i hbounds
        exact finds_some (by simpa using hbounds)
      · exact problem.refuse_finds expr.span
    · exact problem.refuse_finds expr.span

theorem toNat_toUInt32 {value : Int32} (h : 0 ≤ value.toInt) :
    (value.toUInt32.toNat : Int) = value.toInt := by
  change (value.toBitVec.toNat : Int) = value.toBitVec.toInt
  have hcond := BitVec.toInt_eq_toNat_cond value.toBitVec
  have hlt := value.toBitVec.isLt
  change 0 ≤ value.toBitVec.toInt at h
  split at hcond <;> omega

theorem toByte_lt (expr : Expr) : Finds expr.toByte fun value => value.toUInt32.toNat < 0x100 :=
  (expr.toBounded_le 0xff .notAByte).mono fun _ hresult value hvalue => by
    obtain ⟨hlow, hhigh⟩ := hresult value hvalue
    have hnat := toNat_toUInt32 hlow
    omega

theorem toMessageId_lt (expr : Expr) :
    Finds expr.toMessageId fun value => value.toUInt32.toNat < 0x1000000 :=
  (expr.toBounded_le 0xffffff .notAMessageId).mono fun _ hresult value hvalue => by
    obtain ⟨hlow, hhigh⟩ := hresult value hvalue
    have hnat := toNat_toUInt32 hlow
    omega

end Expr

/-- All results of a list have what each of them has. -/
theorem allOf_finds {α β : Type} {step : α → Reporting (Option β)} {P : β → Prop}
    {items : List α} (h : ∀ item ∈ items, Finds (step item) P) :
    Finds (allOf step items) fun results =>
      results.length = items.length ∧ ∀ result ∈ results, P result := by
  induction items with
  | nil => exact finds_some ⟨rfl, nofun⟩
  | cons first rest ih =>
      refine Ensures.bind (h first (List.mem_cons_self ..)) fun result hresult => ?_
      refine Ensures.bind (ih fun item hitem => h item (List.mem_cons_of_mem _ hitem))
        fun results hresults => ?_
      split
      · rename_i value values
        obtain ⟨hlength, hall⟩ := hresults values rfl
        refine finds_some ⟨by simp [hlength], ?_⟩
        simpa using ⟨hresult value rfl, hall⟩
      · exact finds_none

namespace Argument

theorem read_finds {α : Type} {reader : Expr → Reporting (Option α)} {P : α → Prop}
    {toValue : α → OperandValue} {Q : OperandValue → Prop} (argument : Argument)
    (h : ∀ expr, Finds (reader expr) P) (hholds : ∀ value, P value → Q (toValue value)) :
    Finds (argument.read reader toValue) fun operand => Q operand.value := by
  refine Ensures.behind fun result => ?_
  split
  · exact finds_none
  · rename_i expr
    exact Finds.map (h expr) hholds

theorem toBitmask_holds (argument : Argument) :
    Finds argument.toBitmask fun operand => Slot.bitmask.Holds operand.value := by
  cases argument with
  | array span elements =>
      simp only [toBitmask]
      split
      · exact OperandProblem.refuse_finds _ _
      · rename_i hlimit
        refine Finds.map (allOf_finds fun element _ => finds_true element.toNumber)
          fun numbers h => ?_
        simp only [Slot.Holds, List.length_append, List.length_replicate, h.1]
        omega
  | expression _ _ | flag _ _ | jumpTable _ _ => exact OperandProblem.refuse_finds _ _

theorem toPaddedTable_holds (argument : Argument) :
    Finds argument.toPaddedTable fun operand => Slot.paddedTable.Holds operand.value := by
  cases argument with
  | array span elements => exact Finds.map (finds_true _) fun numbers _ => trivial
  | expression _ _ | flag _ _ | jumpTable _ _ => exact OperandProblem.refuse_finds _ _

theorem toCase_key_le (tableCase : TableCase) :
    Finds (toCase tableCase) fun entry => entry.1.toInt ≤ 0xfffe := by
  refine Ensures.bind (tableCase.key.toBounded_le 0xfffe .notACaseKey) fun key hkey => ?_
  refine Ensures.behind fun destination => ?_
  split
  · rename_i key destination
    exact finds_some (hkey key rfl).2
  · exact finds_none

theorem toTargetTable_holds (argument : Argument) :
    Finds argument.toTargetTable fun operand => Slot.targetTable.Holds operand.value := by
  cases argument with
  | jumpTable span cases =>
      refine Finds.map (allOf_finds fun tableCase _ => toCase_key_le tableCase) fun entries h => ?_
      refine ⟨by simp, fun key hkey => ?_⟩
      obtain ⟨entry, hentry, rfl⟩ := List.mem_map.mp hkey
      exact h.2 entry hentry
  | expression _ _ | flag _ _ | array _ _ => exact OperandProblem.refuse_finds _ _

/-- The operand for a slot is one for that slot. -/
theorem toOperand_holds (place : Slot) (argument : Argument) :
    Finds (argument.toOperand place) fun operand => place.Holds operand.value := by
  cases place with
  | bitmask => exact argument.toBitmask_holds
  | targetTable => exact argument.toTargetTable_holds
  | paddedTable => exact argument.toPaddedTable_holds
  | number => exact argument.read_finds (fun _ => finds_true _) fun _ _ => trivial
  | register => exact argument.read_finds (fun _ => finds_true _) fun _ _ => trivial
  | byte => exact argument.read_finds Expr.toByte_lt fun _ h => h
  | messageId => exact argument.read_finds Expr.toMessageId_lt fun _ h => h
  | string => exact argument.read_finds (fun _ => finds_true _) fun _ _ => trivial
  | target => exact argument.read_finds (fun _ => finds_true _) fun _ _ => rfl
  | expression => exact argument.read_finds Expr.toTerms_leaves fun _ h => h 0
  | flag _ _ | numberList | registerList | byteList => exact finds_none

theorem toList_holds {place : Slot} (hlist : place.isList = true) (arguments : List Argument)
    (span : Span) :
    Finds (toList place arguments span) fun operand => place.Holds operand.value := by
  simp only [toList]
  split
  · exact OperandProblem.refuse_finds _ _
  · cases place <;> try cases hlist
    all_goals exact Finds.map (finds_true _) fun _ _ => trivial

end Argument

namespace Slot

theorem flagValue_lt {normal : UInt8} (isWritten : Bool) :
    (flagValue normal isWritten).toUInt32.toNat < 0x100 := by
  rw [UInt8.toNat_toUInt32]
  exact UInt8.toNat_lt _

/-- A relation between slots and operands that lowering establishes: it holds of what is read for
a slot, and of the operands that the code of a routine has on its own. -/
structure Established (R : Slot → OperandValue → Prop) : Prop where
  number : ∀ value, R .number (.number value)
  numberList : ∀ values, R .numberList (.numberList values)
  registerList : ∀ values, R .registerList (.registerList values)
  flag : ∀ name normal isWritten,
    R (.flag name normal) (.flag (flagValue normal isWritten).toUInt32)
  single : ∀ place (argument : Argument),
    Finds (argument.toOperand place) fun operand => R place operand.value
  list : ∀ place, place.isList = true → ∀ (arguments : List Argument) (span : Span),
    Finds (Argument.toList place arguments span) fun operand => R place operand.value

theorem established_holds : Established Holds where
  number _ := trivial
  numberList _ := trivial
  registerList _ := trivial
  flag _ _ isWritten := flagValue_lt isWritten
  single := Argument.toOperand_holds
  list _ := Argument.toList_holds

theorem Established.and {R S : Slot → OperandValue → Prop} (hR : Established R)
    (hS : Established S) : Established fun place value => R place value ∧ S place value where
  number value := ⟨hR.number value, hS.number value⟩
  numberList values := ⟨hR.numberList values, hS.numberList values⟩
  registerList values := ⟨hR.registerList values, hS.registerList values⟩
  flag name normal isWritten := ⟨hR.flag name normal isWritten, hS.flag name normal isWritten⟩
  single place argument := ((hR.single place argument).and (hS.single place argument)).mono
    fun _ h operand hoperand => ⟨h.1 operand hoperand, h.2 operand hoperand⟩
  list place hlist arguments span :=
    ((hR.list place hlist arguments span).and (hS.list place hlist arguments span)).mono
      fun _ h operand hoperand => ⟨h.1 operand hoperand, h.2 operand hoperand⟩

variable {R : Slot → OperandValue → Prop}

/-- Operands that are related to their slots. -/
abbrev Meet (R : Slot → OperandValue → Prop) (slots : List Slot) (operands : List Operand) : Prop :=
  List.Forall₂ (fun place operand => R place operand.value) slots operands

/-- An operand in front of the others. -/
theorem join_meets {place : Slot} {rest : List Slot} {first : Option Operand}
    {others : Reporting (Option (List Operand))} :
    (∀ operand, first = some operand → R place operand.value) →
    Finds others (fun operands => Meet R rest operands) →
    Finds (do
      let behind ← others
      return match first, behind with
        | some operand, some operands => some (operand :: operands)
        | _, _ => none)
      fun operands : List Operand => Meet R (place :: rest) operands := by
  intro hfirst hothers
  refine Ensures.bind hothers fun behind hbehind => ?_
  split
  · rename_i operand operands
    exact finds_some (.cons (hfirst operand rfl) (hbehind operands rfl))
  · exact finds_none

/-- The operands for some slots are each for their slot. -/
theorem Established.fill (hR : Established R) (flags : List Flag) (span : Span) (slots : List Slot)
    (arguments : List Argument) : Finds (Slot.fill flags span slots arguments) (Meet R slots) := by
  induction slots generalizing arguments with
  | nil => exact finds_some .nil
  | cons place rest ih =>
      simp only [Slot.fill]
      split
      · rename_i name normal
        refine join_meets (fun operand hoperand => ?_) (ih arguments)
        obtain rfl := Option.some.inj hoperand
        exact hR.flag name normal _
      · split
        · rename_i hlist
          exact Ensures.bind (hR.list place hlist arguments span) fun first hfirst =>
            join_meets hfirst (ih [])
        · split
          · exact @join_meets R place rest none _ (fun operand hnone => by cases hnone) (ih [])
          · rename_i argument left
            exact Ensures.bind (hR.single place argument) fun first hfirst =>
              join_meets hfirst (ih left)

end Slot

/-- An instruction belongs to a row, and its operands are related to the slots of that. -/
structure Instruction.Suits (R : Slot → OperandValue → Prop) (instruction : Instruction)
    (form : Form) : Prop where
  row : Form.ofInstruction? instruction = some form
  subtype : form.TakesSubtype instruction.subtype
  operands : Slot.Meet R (form.slotsFor instruction.subtype) instruction.operands

theorem Instruction.Suits.ofForm {instruction : Instruction} {form : Form}
    (h : instruction.Suits Slot.Holds form) : instruction.OfForm form :=
  ⟨h.row, h.subtype, h.operands⟩

namespace Form

variable {R : Slot → OperandValue → Prop}

/-- The type byte of a row selects the row. -/
theorem ofOpcode?_subtype : ∀ form ∈ table, ofOpcode? form.opcode form.subtype = some form := by
  decide +kernel

/-- What holds of the type byte of each row: the bit for an optional operand is clear in it and
can be set and cleared, and a row that has no types has the type byte zero. A conditional jump
compares two numbers. -/
theorem table_subtypes : ∀ form ∈ table,
    (form.subtype &&& Instruction.explicitBit = 0 ∧
      form.subtype &&& ~~~Instruction.explicitBit = form.subtype) ∧
    ((form.subtype ||| Instruction.explicitBit) &&& Instruction.explicitBit ≠ 0 ∧
      (form.subtype ||| Instruction.explicitBit) &&& ~~~Instruction.explicitBit = form.subtype) ∧
    (form.layout ≠ .typedOptional → form.subtype = 0) ∧
    (form.layout = .conditional → form.slots = [.number, .number, .target]) := by
  decide +kernel

/-- Where no type is coded, every byte selects the row. -/
theorem ofOpcode?_untyped {form : Form} (hmem : form ∈ table)
    (hlayout : form.layout ≠ .typedOptional) (subtype : UInt8) :
    ofOpcode? form.opcode subtype = some form := by
  have hfirst := ofOpcode?_subtype form hmem
  rw [(table_subtypes form hmem).2.2.1 hlayout] at hfirst
  exact ofOpcode?_of_layout hfirst hlayout subtype

/-- The bit for an optional operand does not change which row is selected. -/
theorem ofOpcode?_explicit {form : Form} (hmem : form ∈ table) :
    ofOpcode? form.opcode (form.subtype ||| Instruction.explicitBit) = some form := by
  obtain ⟨⟨-, hclear⟩, ⟨-, hset⟩, -⟩ := table_subtypes form hmem
  rw [← ofOpcode?_subtype form hmem, ofOpcode?, ofOpcode?, hclear, hset]

theorem mem_of_ofMnemonic? {mnemonic : Bytes} {form : Form} (h : ofMnemonic? mnemonic = some form) :
    form ∈ table := List.mem_of_find?_eq_some h

/-- A type byte and operands that make an instruction of a row. -/
def Takes (R : Slot → OperandValue → Prop) (form : Form) (taken : UInt8 × List Operand) : Prop :=
  ∀ span, (⟨form.opcode, taken.1, taken.2, span⟩ : Instruction).Suits R form

theorem typedOperands_takes (hR : Slot.Established R) {form : Form} (hmem : form ∈ table)
    (hlayout : form.layout = .typedOptional) (mnemonic : Bytes) (span : Span)
    (positional : List Argument) :
    Finds (form.typedOperands mnemonic span positional) (form.Takes R) := by
  obtain ⟨⟨hnone, hclear⟩, ⟨hbit, hset⟩, -⟩ := table_subtypes form hmem
  simp only [typedOperands]
  split
  · refine Finds.map (hR.fill [] span form.slots positional) fun operands h place => ?_
    refine ⟨ofOpcode?_explicit hmem, ?_, ?_⟩
    · simp only [TakesSubtype, hlayout]
      exact hset.symm
    · simpa [slotsFor, hbit] using h
  · split
    · refine Finds.map (hR.fill [] span (form.slots.eraseIdx 1) positional)
        fun operands h place => ?_
      refine ⟨ofOpcode?_subtype form hmem, ?_, ?_⟩
      · simp only [TakesSubtype, hlayout]
        exact hclear.symm
      · simpa [slotsFor, hlayout, hnone] using h
    · exact OperandProblem.refuse_finds _ _

/-- A comparison is coded as its condition, with or without the bit of a negation. -/
theorem ofCode?_comparison (comparison : Comparison) :
    (Condition.ofCode? (comparison.subtype &&& ~~~Instruction.negatedBit)).isSome := by
  simp only [Comparison.subtype]
  split <;> cases comparison.condition <;> decide

theorem comparisonOperands_takes (hR : Slot.Established R) {form : Form} (hmem : form ∈ table)
    (hlayout : form.layout = .conditional) (comparison : Comparison) (target : Argument) :
    Finds (comparisonOperands comparison target) (form.Takes R) := by
  have hslots := (table_subtypes form hmem).2.2.2 hlayout
  have huntyped : form.layout ≠ .typedOptional := by rw [hlayout]; decide
  refine Ensures.behind fun left => Ensures.behind fun right => ?_
  refine Ensures.bind (hR.single .target target) fun place hplace => ?_
  split
  · rename_i left right place
    refine finds_some fun span => ⟨ofOpcode?_untyped hmem huntyped _, ?_, ?_⟩
    · simp only [TakesSubtype, hlayout]
      exact ofCode?_comparison comparison
    · simp only [slotsFor, hlayout, hslots]
      exact .cons (hR.number left) (.cons (hR.number right) (.cons (hplace place rfl) .nil))
  · exact finds_none

theorem conditionalOperands_takes (hR : Slot.Established R) {form : Form} (hmem : form ∈ table)
    (hlayout : form.layout = .conditional) (mnemonic : Bytes) (span : Span)
    (positional : List Argument) :
    Finds (conditionalOperands mnemonic span positional) (form.Takes R) := by
  simp only [conditionalOperands]
  split
  · refine Ensures.behind fun comparison => ?_
    split
    · exact comparisonOperands_takes hR hmem hlayout _ _
    · exact finds_none
  · exact OperandProblem.refuse_finds _ _
  · exact OperandProblem.refuse_finds _ _

theorem plainOperands_takes (hR : Slot.Established R) {form : Form} (hmem : form ∈ table)
    (hlayout : form.layout = .plain)
    (mnemonic : Bytes) (flags : List Flag) (span : Span) (positional : List Argument) :
    Finds (form.plainOperands mnemonic flags span positional) (form.Takes R) := by
  have huntyped : form.layout ≠ .typedOptional := by rw [hlayout]; decide
  have hsubtype := (table_subtypes form hmem).2.2.1 huntyped
  simp only [plainOperands]
  split
  · exact OperandProblem.refuse_finds _ _
  · refine Finds.map (hR.fill flags span form.slots positional)
      fun operands h place => ?_
    refine ⟨?_, ?_, ?_⟩
    · exact ofOpcode?_untyped hmem huntyped _
    · simp only [TakesSubtype, hlayout]
      exact hsubtype
    · simpa [slotsFor, hlayout] using h

theorem operands_takes (hR : Slot.Established R) {form : Form} (hmem : form ∈ table)
    (mnemonic : Bytes) (flags : List Flag) (span : Span) (positional : List Argument) :
    Finds (form.operands mnemonic flags span positional) (form.Takes R) := by
  simp only [operands]
  cases hlayout : form.layout with
  | plain => exact plainOperands_takes hR hmem hlayout mnemonic flags span positional
  | typedOptional => exact typedOperands_takes hR hmem hlayout mnemonic span positional
  | conditional => exact conditionalOperands_takes hR hmem hlayout mnemonic span positional

/-- An instruction has the type byte and the operands that were found for it. -/
theorem instruction?_finds {form : Form} {mnemonic : Bytes} {span : Span}
    {arguments : List Argument} {P : UInt8 × List Operand → Prop}
    (h : ∀ flags, Finds
      (form.operands mnemonic flags span (Statement.positionalOf arguments)) P) :
    Finds (form.instruction? mnemonic span arguments) fun instruction =>
      ∃ taken, P taken ∧ instruction = ⟨form.opcode, taken.1, taken.2, span⟩ := by
  refine Ensures.behind fun flags => ?_
  split
  · exact finds_none
  · rename_i flags
    refine Ensures.bind (h flags) fun found hfound => ?_
    split
    · exact finds_none
    · rename_i subtype operands
      have hjoin (fits : Bool) : Finds
          (pure (if fits then some (⟨form.opcode, subtype, operands, span⟩ : Instruction)
            else none) : Reporting _) fun instruction =>
            ∃ taken, P taken ∧ instruction = ⟨form.opcode, taken.1, taken.2, span⟩ := by
        split
        · exact finds_some ⟨(subtype, operands), hfound _ rfl, rfl⟩
        · exact finds_none
      split
      · exact Ensures.behind hjoin
      · exact hjoin true

/-- An instruction that is written is one of its row. -/
theorem instruction?_suits (hR : Slot.Established R) {form : Form} (hmem : form ∈ table)
    (mnemonic : Bytes) (span : Span) (arguments : List Argument) :
    Finds (form.instruction? mnemonic span arguments) fun instruction =>
      instruction.Suits R form := by
  refine (instruction?_finds fun flags =>
    operands_takes hR hmem mnemonic flags span _).mono ?_
  intro found hfound instruction hinstruction
  obtain ⟨taken, htaken, rfl⟩ := hfound instruction hinstruction
  exact htaken span

end Form

namespace Routine

/-- Every instruction of a list has a row and operands that are related to its slots. -/
def AllSuit (R : Slot → OperandValue → Prop) (instructions : List Instruction) : Prop :=
  ∀ instruction ∈ instructions, ∃ form, instruction.Suits R form

/-- Every instruction of a list has a row and its operands. -/
def AllFormed (instructions : List Instruction) : Prop :=
  ∀ instruction ∈ instructions, ∃ form, instruction.OfForm form

variable {R : Slot → OperandValue → Prop}

theorem AllSuit.append {front back : List Instruction} (hfront : AllSuit R front)
    (hback : AllSuit R back) : AllSuit R (front ++ back) := by
  intro instruction hinstruction
  rcases List.mem_append.mp hinstruction with h | h
  · exact hfront instruction h
  · exact hback instruction h

theorem allSuit_nil : AllSuit R [] := List.forall_mem_nil _

theorem allSuit_singleton (form : Form) {instruction : Instruction}
    (h : instruction.Suits R form) : AllSuit R [instruction] := by
  intro other hother
  rw [List.mem_singleton.mp hother]
  exact ⟨form, h⟩

theorem returnFrom_suits (hR : Slot.Established R) (routine : Routine) (span : Span) :
    AllSuit R (routine.returnFrom span) := by
  have hreturn : AllSuit R [⟨.ret, 0, [], span⟩] :=
    allSuit_singleton (⟨.ret, "return", .plain, 0, []⟩) ⟨rfl, rfl, .nil⟩
  simp only [returnFrom]
  split
  · exact hreturn
  · refine (allSuit_singleton (⟨.pop, "pop", .plain, 0, [.registerList]⟩) ?_).append
      hreturn
    exact ⟨rfl, rfl, .cons (hR.registerList _) .nil⟩

theorem prologue_suits (hR : Slot.Established R) (routine : Routine) :
    AllSuit R routine.prologue := by
  simp only [prologue]
  split
  · exact allSuit_singleton (⟨.push, "push", .plain, 0, [.numberList]⟩)
      ⟨rfl, rfl, .cons (hR.numberList _) .nil⟩
  · exact allSuit_nil

theorem tail_suits (hR : Slot.Established R) (routine : Routine) : AllSuit R routine.tail := by
  simp only [tail]
  split
  · exact allSuit_nil
  · exact returnFrom_suits hR routine routine.span
  · exact allSuit_singleton (⟨.retsub, "retsub", .plain, 0, []⟩) ⟨rfl, rfl, .nil⟩

theorem lowerInstruction_suits (hR : Slot.Established R) (routine : Routine) (span : Span)
    (mnemonic : Bytes) (arguments : List Argument) :
    Ensures (routine.lowerInstruction span mnemonic arguments) fun lowered =>
      AllSuit R lowered.1 := by
  simp only [lowerInstruction]
  split
  · exact Ensures.behind fun _ => Ensures.pure allSuit_nil
  · rename_i form hform
    split
    · exact Ensures.pure (returnFrom_suits hR routine span)
    · refine Ensures.bind (Form.instruction?_suits hR (Form.mem_of_ofMnemonic? hform) mnemonic span
        arguments) fun result hresult => Ensures.pure ?_
      intro instruction hinstruction
      exact ⟨form, hresult instruction (Option.mem_toList.mp hinstruction)⟩

theorem lowerStatements_suits (hR : Slot.Established R) (routine : Routine) (code : CodeUnit)
    (ended : Bool) (statements : List Statement) (hcode : AllSuit R code.instructions) :
    Ensures (routine.lowerStatements code ended statements) fun lowered =>
      AllSuit R lowered.1.instructions := by
  induction statements generalizing code ended with
  | nil => exact Ensures.pure hcode
  | cons first rest ih =>
      cases first with
      | label span name => exact ih (code.placeLabel name span) false hcode
      | instruction span mnemonic arguments =>
          refine Ensures.bind (lowerInstruction_suits hR routine span mnemonic arguments)
            fun lowered hlowered => ?_
          exact ih (code.append lowered.1) lowered.2 (hcode.append hlowered)

/-- The operands of a code unit are related to their slots as lowering establishes it. -/
theorem lower_suits (hR : Slot.Established R) (routine : Routine) :
    AllSuit R routine.lower.1.instructions := by
  have hstatements := lowerStatements_suits hR routine
    (((CodeUnit.empty routine.kind routine.name).placeLabel routine.name routine.span).append
      routine.prologue) false routine.statements (prologue_suits hR routine) []
  simp only [lower, StateT.run]
  generalize routine.lowerStatements _ false routine.statements [] = lowered at hstatements ⊢
  obtain ⟨⟨code, ended⟩, diagnostics⟩ := lowered
  cases ended with
  | true => exact hstatements
  | false => exact hstatements.append (tail_suits hR routine)

/-- Every instruction of a code unit is one of the machine. -/
theorem lower_formed (routine : Routine) : AllFormed routine.lower.1.instructions := by
  intro instruction hinstruction
  obtain ⟨form, hform⟩ := lower_suits Slot.established_holds routine instruction hinstruction
  exact ⟨form, hform.ofForm⟩

end Routine

end NovelAsm
