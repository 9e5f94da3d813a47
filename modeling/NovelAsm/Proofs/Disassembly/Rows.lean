import NovelAsm.Proofs.Code.Decoded
import NovelAsm.Proofs.CodeUnit.Forms
import NovelAsm.Proofs.Disassembly.Lowering

/-!
Instructions that are lowered to themselves. The operands that are printed for an instruction fill
the slots of its row, with the flags that are written by name; the type byte comes back from the
number of operands or from the condition. So the row makes the instruction again, which is what
`Instruction.OfForm.lowers` says.
-/

namespace NovelAsm

namespace Slot

/-- Whether only the last slot may take all operands that are left. -/
def listsLast : List Slot → Bool
  | [] | [_] => true
  | first :: rest => !first.isList && listsLast rest

/-- Whether the value of a flag is a bit when its name is not written. -/
def hasBit : Slot → Bool
  | .flag _ normal => normal == 0 || normal == 1
  | _ => true

/-- The flags among the values of slots are those whose names are written. -/
def FlagsAgree (flags : List Flag) (slots : List Slot) (values : List OperandValue) : Prop :=
  ∀ name normal value, (Slot.flag name normal, OperandValue.flag value) ∈ slots.zip values →
    value = (flagValue normal (flags.contains name)).toUInt32

variable {flags : List Flag} {slots : List Slot} {values : List OperandValue}
  {arguments : List Argument}

theorem exists_of_isFlag {place : Slot} (h : place.isFlag = true) :
    ∃ name normal, place = .flag name normal := by
  cases place <;> first | cases h; done | exact ⟨_, _, rfl⟩

theorem exists_of_holds_flag {name : Flag} {normal : UInt8} {value : OperandValue}
    (h : (Slot.flag name normal).Holds value) : ∃ bit, value = .flag bit := by
  cases value <;> first | exact h.elim | exact ⟨_, rfl⟩

theorem of_listsLast_cons {place : Slot} (h : listsLast (place :: slots) = true) :
    (place.isList = true → slots = []) ∧ listsLast slots = true := by
  cases slots with
  | nil => exact ⟨fun _ => rfl, rfl⟩
  | cons second rest =>
      have h : (!place.isList && listsLast (second :: rest)) = true := h
      rw [Bool.and_eq_true, Bool.not_eq_true'] at h
      exact ⟨fun hlist => absurd hlist (Bool.eq_false_iff.mp h.1), h.2⟩

/-- Values are printed so that they fill their slots again. -/
theorem exists_fills (hholds : List.Forall₂ Slot.Holds slots values)
    (hwritable : ∀ value ∈ values, value.IsWritable) (hlast : listsLast slots = true)
    (hagree : FlagsAgree flags slots values) :
    ∃ pieces, List.Forall₂ OperandValue.PrintsAs values pieces ∧
      Fills flags slots values (pieces.flatten.map PrintedOperand.argument) := by
  induction hholds with
  | nil => exact ⟨[], .nil, .nil⟩
  | @cons place value slots values hfirst hrest ih =>
      rw [List.forall_mem_cons] at hwritable
      by_cases hlist : place.isList = true
      · obtain rfl := (of_listsLast_cons hlast).1 hlist
        cases hrest
        obtain ⟨printed, hprints, hfills⟩ := Argument.exists_list hfirst hwritable.1 hlist
        refine ⟨[printed], .cons hprints .nil, ?_⟩
        rw [List.flatten_cons, List.flatten_nil, List.append_nil]
        exact .list hlist hfills
      · have hlist : place.isList = false := Bool.eq_false_iff.mpr hlist
        obtain ⟨pieces, hprints, hfills⟩ := ih hwritable.2 (of_listsLast_cons hlast).2
          fun name normal value hmem =>
          hagree name normal value (List.mem_cons_of_mem _ hmem)
        by_cases hflag : place.isFlag = true
        · obtain ⟨name, normal, rfl⟩ := exists_of_isFlag hflag
          obtain ⟨bit, rfl⟩ := exists_of_holds_flag hfirst
          obtain rfl := hagree name normal bit (List.mem_cons_self ..)
          exact ⟨[] :: pieces, .cons (.flag _) hprints, .flag hfills⟩
        · have hflag : place.isFlag = false := Bool.eq_false_iff.mpr hflag
          obtain ⟨printed, hfirst, hoperand⟩ :=
            Argument.exists_single hfirst hwritable.1 hflag hlist
          exact ⟨[printed] :: pieces, .cons hfirst hprints, .single hflag hlist hoperand hfills⟩

/-- Slots take as many arguments as have to be written, and more only if one is a list. -/
theorem Fills.length (h : Fills flags slots values arguments) :
    slots.countP (fun place => !place.isFlag && !place.isList) ≤ arguments.length ∧
      (slots.any Slot.isList = false →
        arguments.length = slots.countP fun place => !place.isFlag && !place.isList) := by
  induction h with
  | nil => exact ⟨Nat.zero_le _, fun _ => rfl⟩
  | flag h ih => simpa [isFlag, isList] using ih
  | single hflag hlist hfirst h ih => simpa [hflag, hlist] using ih
  | list hlist h => simp [hlist]

end Slot

namespace Form

/-- What the rows of the table have in common. -/
theorem table_common : ∀ form ∈ table, ofMnemonic? (ascii form.mnemonic) = some form ∧
    (Slot.listsLast form.slots = true ∧
      Slot.listsLast (form.slots.eraseIdx 1) = true ∧ form.slots.countP Slot.isFlag ≤ 1 ∧
      ∀ place ∈ form.slots, place.isFlag = true →
        place.hasBit = true ∧ form.slots.reverse.find? Slot.isFlag = some place) ∧
    (form.layout = .typedOptional → 2 ≤ form.slots.length ∧
      form.slots.all (fun place => !place.isFlag && !place.isList) = true) := by
  decide +kernel

theorem ofMnemonic?_mnemonic (form : Form) (hrow : form ∈ table) :
    ofMnemonic? (ascii form.mnemonic) = some form :=
  (table_common form hrow).1

theorem table_flags (form : Form) (hrow : form ∈ table) : Slot.listsLast form.slots = true ∧
    Slot.listsLast (form.slots.eraseIdx 1) = true ∧ form.slots.countP Slot.isFlag ≤ 1 ∧
    ∀ place ∈ form.slots, place.isFlag = true →
      place.hasBit = true ∧ form.slots.reverse.find? Slot.isFlag = some place :=
  (table_common form hrow).2.1

theorem table_typed (form : Form) (hrow : form ∈ table) (h : form.layout = .typedOptional) :
    2 ≤ form.slots.length ∧
      form.slots.all (fun place => !place.isFlag && !place.isList) = true :=
  (table_common form hrow).2.2 h

variable {form : Form} {subtype : UInt8}

theorem listsLast_slotsFor (hrow : form ∈ table) (subtype : UInt8) :
    Slot.listsLast (form.slotsFor subtype) = true := by
  rw [slotsFor]
  split
  · exact (table_flags form hrow).2.1
  · exact (table_flags form hrow).1

end Form

namespace Instruction

variable {form : Form} {slots : List Slot} {values : List OperandValue}

theorem flagName?_of_isFlag {value : UInt32} {name : Flag} {normal : UInt8}
    (h : form.slots.reverse.find? Slot.isFlag = some (.flag name normal)) :
    flagName? form (.flag value) = if value == normal.toUInt32 then none else some name := by
  rw [flagName?, h]

theorem exists_of_flagName? {value : OperandValue} {name : Flag}
    (h : flagName? form value = some name) :
    ∃ bit normal, value = .flag bit ∧ Slot.flag name normal ∈ form.slots := by
  cases value with
  | flag bit =>
      rw [flagName?] at h
      split at h
      · rename_i found normal hfound
        split at h
        · cases h
        · cases h
          exact ⟨bit, normal, rfl, List.mem_reverse.mp (List.mem_of_find?_eq_some hfound)⟩
      · cases h
  | _ => cases h

theorem isFlag_of_holds {place : Slot} {value : UInt32} (h : place.Holds (.flag value)) :
    place.isFlag = true := by
  cases place <;> first | exact h.elim | rfl

/-- As many flags are written as there are slots for flags at most. -/
theorem length_flagNames (h : List.Forall₂ Slot.Holds slots values) :
    (values.filterMap (flagName? form)).length ≤ slots.countP Slot.isFlag := by
  induction h with
  | nil => exact Nat.le_refl _
  | @cons place value slots values hfirst _ ih =>
      rw [List.filterMap_cons, List.countP_cons]
      cases hname : flagName? form value with
      | none => exact Nat.le_add_right_of_le ih
      | some name =>
          obtain ⟨bit, normal, rfl, -⟩ := exists_of_flagName? hname
          rw [isFlag_of_holds hfirst]
          exact Nat.succ_le_succ ih

/-- Two flags among the values of a row are one. -/
theorem eq_of_mem_zip (h : List.Forall₂ Slot.Holds slots values)
    (hone : slots.countP Slot.isFlag ≤ 1) {first second : Slot × OperandValue}
    (hfirst : first ∈ slots.zip values) (hsecond : second ∈ slots.zip values)
    (hflag : first.1.isFlag = true) (hother : second.1.isFlag = true) : first = second := by
  have hcount : ((slots.zip values).filter (Slot.isFlag ∘ Prod.fst)).length ≤ 1 := by
    rw [← List.countP_eq_length_filter, ← List.countP_map,
      List.map_fst_zip (Nat.le_of_eq h.length_eq)]
    exact hone
  have hmem : first ∈ (slots.zip values).filter (Slot.isFlag ∘ Prod.fst) :=
    List.mem_filter.mpr ⟨hfirst, hflag⟩
  have hmem' : second ∈ (slots.zip values).filter (Slot.isFlag ∘ Prod.fst) :=
    List.mem_filter.mpr ⟨hsecond, hother⟩
  generalize (slots.zip values).filter (Slot.isFlag ∘ Prod.fst) = flagged at hcount hmem hmem'
  cases flagged with
  | nil => cases hmem
  | cons only rest =>
      obtain rfl := List.length_eq_zero_iff.mp (Nat.le_zero.mp (Nat.le_of_succ_le_succ hcount))
      rw [List.mem_singleton.mp hmem, List.mem_singleton.mp hmem']

theorem flagValue_bit {value : UInt32} {normal : UInt8} (hnormal : normal = 0 ∨ normal = 1)
    (hvalue : value = 0 ∨ value = 1) :
    value = (Slot.flagValue normal (value != normal.toUInt32)).toUInt32 := by
  rcases hnormal with rfl | rfl <;> rcases hvalue with rfl | rfl <;> rfl

/-- The flags that are printed are those that differ from their rows. -/
theorem flagsAgree (hrow : form ∈ Form.table) (hslots : slots.Sublist form.slots)
    (h : List.Forall₂ Slot.Holds slots values) (hwritable : ∀ value ∈ values, value.IsWritable) :
    Slot.FlagsAgree (values.filterMap (flagName? form)) slots values := by
  intro name normal value hmem
  obtain ⟨-, -, hone, hflags⟩ := Form.table_flags form hrow
  have hone := Nat.le_trans hslots.countP_le hone
  obtain ⟨hplace, hmember⟩ := List.of_mem_zip hmem
  obtain ⟨hbit, hfind⟩ := hflags _ (hslots.subset hplace) rfl
  have hcontains : (values.filterMap (flagName? form)).contains name =
      (value != normal.toUInt32) := by
    rw [Bool.eq_iff_iff, List.contains_iff_mem, List.mem_filterMap, bne_iff_ne]
    constructor
    · rintro ⟨other, hother, hname⟩ rfl
      obtain ⟨bit, -, rfl, -⟩ := exists_of_flagName? hname
      obtain ⟨index, hindex, hget⟩ := List.mem_iff_getElem.mp hother
      have hslot : index < slots.length := h.length_eq ▸ hindex
      have hin : (slots[index], OperandValue.flag bit) ∈ slots.zip values :=
        List.mem_iff_getElem.mpr ⟨index, by simp [h.length_eq, hindex], by simp [hget]⟩
      have hholds := List.forall₂_iff_zip.mp h |>.2 hin
      obtain ⟨-, heq⟩ := Prod.mk.inj (eq_of_mem_zip h hone hmem hin rfl (isFlag_of_holds hholds))
      rw [← OperandValue.flag.inj heq] at hname
      rw [flagName?_of_isFlag hfind] at hname
      simp at hname
    · intro hne
      exact ⟨_, hmember, by rw [flagName?_of_isFlag hfind, if_neg (by simpa using hne)]⟩
  rw [hcontains]
  exact flagValue_bit (by simpa [Slot.hasBit] using hbit) (hwritable _ hmember)

/-- The operands of an instruction are printed so that they fill the slots of its row again. -/
theorem OfForm.exists_fills {instruction : Instruction} (h : instruction.OfForm form)
    (hwritable : ∀ operand ∈ instruction.operands, operand.value.IsWritable) :
    let values := instruction.operands.map Operand.value
    let flags := values.filterMap (flagName? form)
    ∃ pieces, List.Forall₂ OperandValue.PrintsAs values pieces ∧
      Slot.Fills flags (form.slotsFor instruction.subtype) values
        (pieces.flatten.map PrintedOperand.argument) ∧
      flags.length ≤ (form.slotsFor instruction.subtype).countP Slot.isFlag := by
  intro values flags
  have hrow := (Form.of_ofOpcode? h.row).1
  have hslots := Form.slotsFor_sublist form instruction.subtype
  have hholds : List.Forall₂ Slot.Holds (form.slotsFor instruction.subtype) values :=
    List.forall₂_map_right_iff.mpr h.operands
  have hvalues : ∀ value ∈ values, value.IsWritable := List.forall_mem_map.mpr hwritable
  obtain ⟨pieces, hprints, hfills⟩ := Slot.exists_fills hholds hvalues
    (Form.listsLast_slotsFor hrow _) (flagsAgree hrow hslots hholds hvalues)
  exact ⟨pieces, hprints, hfills, length_flagNames hholds⟩

end Instruction

namespace PrintedOperand

open Statement

theorem flagsOf_flags (flags : List Flag) :
    flagsOf ((flags.map flag).map argument) = flags.map (·, .origin) := by
  induction flags with
  | nil => rfl
  | cons first rest ih => exact congrArg ((first, Span.origin) :: ·) ih

theorem positionalOf_flags (flags : List Flag) :
    positionalOf ((flags.map flag).map argument) = [] := by
  induction flags with
  | nil => rfl
  | cons first rest ih => exact ih

variable {operands : List PrintedOperand}

theorem flagsOf_positional (h : ∀ operand ∈ operands, operand.isFlag = false) :
    flagsOf (operands.map argument) = [] := by
  induction operands with
  | nil => rfl
  | cons first rest ih =>
      rw [List.forall_mem_cons] at h
      cases first with
      | flag => cases h.1
      | _ => exact ih h.2

theorem positionalOf_positional (h : ∀ operand ∈ operands, operand.isFlag = false) :
    positionalOf (operands.map argument) = operands.map argument := by
  induction operands with
  | nil => rfl
  | cons first rest ih =>
      rw [List.forall_mem_cons] at h
      cases first with
      | flag => cases h.1
      | _ => exact congrArg (_ :: ·) (ih h.2)

end PrintedOperand

namespace Form

theorem checkFlags_eq {form : Form} (mnemonic : Bytes) {flags : List Flag}
    (hone : flags.length ≤ 1) (hrow : ∀ flag ∈ flags, flag ∈ form.slots.filterMap Slot.flag?) :
    Statement.checkFlags form mnemonic [] true (flags.map (·, .origin)) = pure (some flags) := by
  cases flags with
  | nil => rfl
  | cons flag rest =>
      obtain rfl := List.length_eq_zero_iff.mp (Nat.le_zero.mp (Nat.le_of_succ_le_succ hone))
      have hflag : (form.slots.filterMap Slot.flag?).contains flag = true :=
        List.contains_iff_mem.mpr (hrow flag (List.mem_singleton_self _))
      simp only [List.map_cons, List.map_nil, Statement.checkFlags, Statement.flagProblem?, hflag]
      rfl

end Form

section Calls

variable {span : Span} {name : Bytes} {taken : Nat}

theorem Operator.exprOf_ne_function (operator : Operator) (operands : List Expr) :
    operator.exprOf operands ≠ .codeAddress span name .function taken := by
  unfold Operator.exprOf
  split
  · split <;> exact fun h => by cases h
  · exact fun h => by cases h
  · split <;> exact fun h => by cases h
  · exact fun h => by cases h

theorem Number.expr_ne_function (value : Number) :
    value.expr ≠ .codeAddress span name .function taken := by
  cases value with
  | constant value =>
      rw [Number.expr]
      cases value.toInt <;> exact fun h => by cases h
  | register source => exact fun h => by cases h

theorem Formula.expr_ne_function (formula : Formula) :
    formula.expr ≠ .codeAddress span name .function taken := by
  cases formula with
  | number value => exact value.expr_ne_function
  | unary operator => exact operator.exprOf_ne_function _
  | binary operator => exact operator.exprOf_ne_function _
  | select => exact Operator.select.exprOf_ne_function _

/-- No printed operand names a function: every name is that of a label. -/
theorem PrintedOperand.argument_ne_function (operand : PrintedOperand) (place : Span) :
    operand.argument ≠ .expression place (.codeAddress span name .function taken) := by
  intro h
  cases operand with
  | number value => exact value.expr_ne_function (Argument.expression.inj h).2
  | formula value => exact value.expr_ne_function (Argument.expression.inj h).2
  | place value => cases value <;> cases h
  | _ => cases h

theorem Form.checkCall_printed (operands : List PrintedOperand) (found : List Operand) :
    checkCall (operands.map PrintedOperand.argument) found = pure true := by
  unfold checkCall
  split
  · rename_i place span name taken rest heq
    cases operands with
    | nil => cases heq
    | cons first more =>
        exact absurd (List.cons.inj heq).1 (first.argument_ne_function place)
  · rfl

end Calls

namespace Form

variable {form : Form} {subtype : UInt8} {flags : List Flag} {values : List OperandValue}
  {arguments : List Argument}

/-- The bit of a type byte, taken out and put back: that of an operand that is written, and that
of a condition that is negated. -/
theorem typeBit_back : ∀ subtype : UInt8,
    (subtype &&& Instruction.explicitBit ≠ 0 →
      (subtype &&& ~~~Instruction.explicitBit) ||| Instruction.explicitBit = subtype) ∧
    (subtype &&& Instruction.explicitBit = 0 →
      subtype &&& ~~~Instruction.explicitBit = subtype) ∧
    ∀ condition ∈ Condition.all, condition.code = subtype &&& ~~~Instruction.negatedBit →
      (if subtype &&& Instruction.negatedBit != 0 then
        condition.code ||| Instruction.negatedBit else condition.code) = subtype := by
  decide +kernel

theorem plainOperands_eq (mnemonic : Bytes) (h : Slot.Fills flags form.slots values arguments) :
    form.plainOperands mnemonic flags .origin arguments =
      pure (some (form.subtype, values.map (⟨·, .origin⟩))) := by
  have hadmits : form.admits arguments.length = true := by
    obtain ⟨hleast, hmost⟩ := h.length
    rw [admits, Bool.and_eq_true, Bool.or_eq_true, decide_eq_true_eq, decide_eq_true_eq, hasList]
    refine ⟨hleast, ?_⟩
    cases hlist : form.slots.any Slot.isList with
    | false => exact .inr (Nat.le_of_eq (hmost hlist))
    | true => exact .inl rfl
  rw [plainOperands, hadmits, h.fill]
  rfl

/-- Operands of a typed operation fill its slots whatever flags are written. -/
theorem typedOperands_eq (mnemonic : Bytes) (hrow : form ∈ table)
    (hlayout : form.layout = .typedOptional)
    (hsubtype : form.subtype = subtype &&& ~~~Instruction.explicitBit)
    (h : Slot.Fills [] (form.slotsFor subtype) values arguments) :
    form.typedOperands mnemonic .origin arguments =
      pure (some (subtype, values.map (⟨·, .origin⟩))) := by
  obtain ⟨htwo, hplain⟩ := table_typed form hrow hlayout
  have hlength : arguments.length = (form.slotsFor subtype).length := by
    have hall := List.all_eq_true.mp hplain
    have hsub := (slotsFor_sublist form subtype).subset
    rw [h.length.2, List.countP_eq_length]
    · exact fun place hplace => hall place (hsub hplace)
    · rw [List.any_eq_false]
      intro place hplace hlist
      have := hall place (hsub hplace)
      simp [hlist] at this
  rw [typedOperands]
  by_cases hbit : subtype &&& Instruction.explicitBit = 0
  · have hslots : form.slotsFor subtype = form.slots.eraseIdx 1 := by
      simp [slotsFor, hlayout, hbit]
    rw [hslots] at h hlength
    rw [List.length_eraseIdx_of_lt (by omega)] at hlength
    have hne : (arguments.length == form.slots.length) = false := by
      rw [beq_eq_false_iff_ne]
      omega
    have heq : (arguments.length + 1 == form.slots.length) = true := by
      rw [beq_iff_eq]
      omega
    simp only [hne, heq, h.fill, hsubtype, (typeBit_back subtype).2.1 hbit]
    rfl
  · have hslots : form.slotsFor subtype = form.slots := by
      simp [slotsFor, hlayout, hbit]
    rw [hslots] at h hlength
    simp only [hlength, beq_self_eq_true, h.fill, hsubtype, (typeBit_back subtype).1 hbit]
    rfl

theorem ofExpr_masked (negated : Bool) (left : Expr) (right : Number) :
    Comparison.ofExpr negated (.binary .origin .bitAnd left right.expr) =
      pure (some ⟨.masked, negated, left, right.expr⟩) := by
  have hbit : Comparison.bitOf? right.expr = none := by
    cases right with
    | constant value =>
        rw [Number.expr]
        cases value.toInt <;> rfl
    | register source => rfl
  simp only [Comparison.ofExpr, Comparison.ofBinary?, Comparison.ofOperator?, hbit]

/-- A condition that is printed is read as the comparison that it was printed from. -/
theorem ofExpr_formula (condition : Condition) (negated : Bool) (left right : Number) :
    Comparison.ofExpr false (condition.formula negated left right).expr =
      pure (some ⟨condition, negated, left.expr, right.expr⟩) := by
  cases condition with
  | masked => cases negated <;> exact ofExpr_masked _ left.expr right
  | _ => cases negated <;> rfl

theorem conditionalOperands_eq (mnemonic : Bytes) {condition : Condition} {left right : Number}
    {destination : CodeTarget}
    (hcondition : Condition.ofCode? (subtype &&& ~~~Instruction.negatedBit) = some condition)
    (hleft : left.IsWritable) (hright : right.IsWritable) (hspan : destination.span = .origin) :
    conditionalOperands mnemonic .origin
      [.expression .origin
        (condition.formula (subtype &&& Instruction.negatedBit != 0) left right).expr,
        .expression .origin destination.place.expr] =
      pure (some (subtype, [⟨.number left, .origin⟩, ⟨.number right, .origin⟩,
        ⟨.target [destination], .origin⟩])) := by
  have hcode := (typeBit_back subtype).2.2 condition
    (List.mem_of_find?_eq_some hcondition) (by simpa using List.find?_some hcondition)
  obtain ⟨place, span⟩ := destination
  obtain rfl : span = .origin := hspan
  have htarget := Argument.read_eq place.span_expr (Expr.toTarget_expr place)
    fun destination => .target [destination]
  simp only [conditionalOperands, ofExpr_formula, pure_bind, comparisonOperands,
    Expr.toNumber_expr hleft, Expr.toNumber_expr hright, Argument.toOperand, htarget,
    Comparison.subtype, hcode, Number.span_expr]

/-- Operands that fill the slots of a row make an instruction of it. -/
theorem instruction?_eq {mnemonic : Bytes} {operands : List PrintedOperand} {found : List Operand}
    (hpositional : ∀ operand ∈ operands, operand.isFlag = false) (hone : flags.length ≤ 1)
    (hflags : ∀ flag ∈ flags, flag ∈ form.slots.filterMap Slot.flag?)
    (h : form.operands mnemonic flags .origin (operands.map PrintedOperand.argument) =
      pure (some (subtype, found))) :
    form.instruction? mnemonic .origin
      ((operands ++ flags.map PrintedOperand.flag).map PrintedOperand.argument) =
        pure (some ⟨form.opcode, subtype, found, .origin⟩) := by
  have hwritten : Statement.flagsOf
      ((operands ++ flags.map PrintedOperand.flag).map PrintedOperand.argument) =
        flags.map (·, .origin) := by
    rw [List.map_append, Statement.flagsOf, List.filterMap_append]
    exact congrArg₂ (· ++ ·) (PrintedOperand.flagsOf_positional hpositional)
      (PrintedOperand.flagsOf_flags flags)
  have hleft : Statement.positionalOf
      ((operands ++ flags.map PrintedOperand.flag).map PrintedOperand.argument) =
        operands.map PrintedOperand.argument := by
    rw [List.map_append, Statement.positionalOf, List.filter_append]
    exact (congrArg₂ (· ++ ·) (PrintedOperand.positionalOf_positional hpositional)
      (PrintedOperand.positionalOf_flags flags)).trans (List.append_nil _)
  simp only [instruction?, hwritten, hleft, checkFlags_eq mnemonic hone hflags, pure_bind, h,
    checkCall_printed, if_true, ite_self]

end Form

namespace Instruction

variable {instruction : Instruction} {form : Form}

theorem OfForm.opcode_eq (h : instruction.OfForm form) : form.opcode = instruction.opcode :=
  (Form.of_ofOpcode? h.row).2

/-- Operands without spans are their values. -/
theorem map_origin {operands : List Operand} (h : ∀ operand ∈ operands, operand.span = .origin) :
    (operands.map Operand.value).map (⟨·, .origin⟩) = operands := by
  rw [List.map_map]
  refine (List.map_congr_left fun operand hoperand => ?_).trans (List.map_id _)
  exact congrArg (Operand.mk operand.value) (h operand hoperand).symm

section Lowers

variable (h : instruction.OfForm form)
  (hspans : ∀ operand ∈ instruction.operands, operand.span = .origin)
  (hwritable : ∀ operand ∈ instruction.operands, operand.value.IsWritable)

include h hspans hwritable

theorem OfForm.lowers_conditional (hlayout : form.layout = .conditional) :
    ∃ operands, instruction.PrintsAs form operands ∧
      form.instruction? (ascii form.mnemonic) .origin (operands.map PrintedOperand.argument) =
        pure (some ⟨form.opcode, instruction.subtype, instruction.operands, .origin⟩) := by
  obtain ⟨condition, left, right, destination, hcondition, hoperands⟩ :=
    h.exists_condition hlayout
  have hall : ∀ value ∈ instruction.operands.map Operand.value, value.IsWritable :=
    List.forall_mem_map.mpr hwritable
  simp only [hoperands, List.forall_mem_cons] at hall
  obtain ⟨hleft, hright, hplace, -⟩ := hall
  have hresult := Form.conditionalOperands_eq (ascii form.mnemonic) hcondition hleft hright
    (hplace destination (List.mem_singleton_self _))
  have hmake := @Form.instruction?_eq form instruction.subtype [] (ascii form.mnemonic)
    [.formula (condition.formula (instruction.subtype &&& negatedBit != 0) left right),
      .place destination.place] instruction.operands
    (List.forall_mem_cons.mpr ⟨rfl, List.forall_mem_singleton.mpr rfl⟩) (Nat.zero_le 1)
    (List.forall_mem_nil _)
    (by rw [Form.operands, hlayout, ← map_origin hspans, hoperands]; exact hresult)
  exact ⟨_, .conditional hlayout hcondition hoperands, hmake⟩

omit hwritable in
/-- The pieces that fill the slots of a row are read as the operands of the instruction. -/
theorem OfForm.operands_eq (hlayout : form.layout ≠ .conditional)
    {pieces : List (List PrintedOperand)}
    (hfills : Slot.Fills ((instruction.operands.map Operand.value).filterMap (flagName? form))
      (form.slotsFor instruction.subtype) (instruction.operands.map Operand.value)
      (pieces.flatten.map PrintedOperand.argument))
    (hcount : ((instruction.operands.map Operand.value).filterMap (flagName? form)).length ≤
      (form.slotsFor instruction.subtype).countP Slot.isFlag) :
    form.operands (ascii form.mnemonic)
      ((instruction.operands.map Operand.value).filterMap (flagName? form)) .origin
      (pieces.flatten.map PrintedOperand.argument) =
        pure (some (instruction.subtype, instruction.operands)) := by
  have hrow := (Form.of_ofOpcode? h.row).1
  have hsubtype := h.subtype
  rw [Form.TakesSubtype] at hsubtype
  rw [Form.operands]
  cases hkind : form.layout with
  | conditional => exact absurd hkind hlayout
  | plain =>
      have hslots : form.slotsFor instruction.subtype = form.slots := by
        simp [Form.slotsFor, hkind]
      have hresult := Form.plainOperands_eq (ascii form.mnemonic) (hslots ▸ hfills)
      have huntyped : form.layout ≠ .typedOptional := by rw [hkind]; decide
      rw [map_origin hspans, (Form.table_subtypes form hrow).2.2.1 huntyped] at hresult
      rw [hkind] at hsubtype
      rw [hsubtype]
      exact hresult
  | typedOptional =>
      rw [hkind] at hsubtype
      have hnone : (form.slotsFor instruction.subtype).countP Slot.isFlag = 0 := by
        rw [List.countP_eq_zero]
        intro place hplace hflag
        have hall := List.all_eq_true.mp (Form.table_typed form hrow hkind).2 place
          ((Form.slotsFor_sublist form _).subset hplace)
        simp [hflag] at hall
      rw [hnone] at hcount
      rw [List.length_eq_zero_iff.mp (Nat.le_zero.mp hcount)] at hfills
      have hresult := Form.typedOperands_eq (ascii form.mnemonic) hrow hkind hsubtype hfills
      rw [map_origin hspans] at hresult
      exact hresult

theorem OfForm.lowers_positional (hlayout : form.layout ≠ .conditional) :
    ∃ operands, instruction.PrintsAs form operands ∧
      form.instruction? (ascii form.mnemonic) .origin (operands.map PrintedOperand.argument) =
        pure (some ⟨form.opcode, instruction.subtype, instruction.operands, .origin⟩) := by
  have hrow := (Form.of_ofOpcode? h.row).1
  obtain ⟨pieces, hprints, hfills, hcount⟩ := h.exists_fills hwritable
  have hone := Nat.le_trans hcount (Nat.le_trans
    (Form.slotsFor_sublist form instruction.subtype).countP_le (Form.table_flags form hrow).2.2.1)
  have hnames : ∀ flag ∈ (instruction.operands.map Operand.value).filterMap (flagName? form),
      flag ∈ form.slots.filterMap Slot.flag? := by
    intro flag hflag
    obtain ⟨value, -, hname⟩ := List.mem_filterMap.mp hflag
    obtain ⟨bit, normal, -, hslot⟩ := exists_of_flagName? hname
    exact List.mem_filterMap.mpr ⟨_, hslot, rfl⟩
  exact ⟨_, .positional hlayout hprints, Form.instruction?_eq
    (forall_pieces hprints fun value _ printed hvalue => hvalue.isFlag_eq_false) hone hnames
    (h.operands_eq hspans hlayout hfills hcount)⟩

end Lowers

/-- What is printed for an instruction is lowered to the instruction. -/
theorem OfForm.lowers (h : instruction.OfForm form)
    (hspan : instruction.span = .origin) (hspans : ∀ operand ∈ instruction.operands,
      operand.span = .origin)
    (hwritable : ∀ operand ∈ instruction.operands, operand.value.IsWritable) :
    ∃ operands, instruction.PrintsAs form operands ∧
      form.instruction? (ascii form.mnemonic) .origin (operands.map PrintedOperand.argument) =
        pure (some instruction) := by
  have hself : (⟨form.opcode, instruction.subtype, instruction.operands, .origin⟩ : Instruction) =
      instruction := by
    rw [h.opcode_eq, ← hspan]
  by_cases hlayout : form.layout = .conditional
  · obtain ⟨operands, hprints, hmakes⟩ := h.lowers_conditional hspans hwritable hlayout
    exact ⟨operands, hprints, hself ▸ hmakes⟩
  · obtain ⟨operands, hprints, hmakes⟩ := h.lowers_positional hspans hwritable hlayout
    exact ⟨operands, hprints, hself ▸ hmakes⟩

end Instruction

end NovelAsm
