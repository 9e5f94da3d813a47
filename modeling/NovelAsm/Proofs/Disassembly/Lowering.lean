import NovelAsm.CodeUnit.Lowering
import NovelAsm.Proofs.Disassembly.Unfolded

/-!
Printed instructions are lowered to themselves. Each operand comes back from the argument that it
was printed as, and so does the type byte; what cannot be written is left out by
`OperandValue.IsWritable`.
-/

namespace NovelAsm

theorem toUInt32_ofInt (value : UInt32) : (Int32.ofInt value.toNat).toUInt32 = value := by
  apply UInt32.toBitVec_inj.mp
  change BitVec.ofInt 32 value.toNat = value.toBitVec
  rw [BitVec.ofInt_natCast]
  exact BitVec.ofNat_toNat ..

theorem toInt_ofInt_of_lt {n : Nat} (h : n < 0x80000000) : (Int32.ofInt n).toInt = n :=
  Int32.toInt_ofInt_of_le (by omega) (by omega)

namespace Expr

theorem toNumber_expr {value : Number} (h : value.IsWritable) :
    value.expr.toNumber = pure (some value) := by
  rw [toNumber, Number.compute_expr h, pure_bind, Formula.isValid_computation]
  cases value <;> rfl

theorem toTerms_expr {formula : Formula} (hstays : formula.stays = true)
    (hwritable : formula.IsWritable) : formula.expr.toTerms = pure (some formula.terms) := by
  rw [toTerms, Formula.compute_expr hstays hwritable, pure_bind, Formula.isValid_computation,
    Formula.toTerms_computation]
  rfl

theorem toBounded_literal {limit : Int} (problem : OperandProblem) {n : Nat} (h : n ≤ limit)
    (hlimit : limit < 0x80000000) :
    (Expr.literal .origin ⟨Int32.ofInt n, .integer⟩).toBounded limit problem =
      pure (some (Int32.ofInt n)) := by
  have hvalue := @toInt_ofInt_of_lt n (by omega)
  have hbounds : (decide (0 ≤ (Int32.ofInt n).toInt) && decide ((Int32.ofInt n).toInt ≤ limit)) =
      true := by
    rw [hvalue, Bool.and_eq_true, decide_eq_true_eq, decide_eq_true_eq]
    exact ⟨Int.natCast_nonneg n, h⟩
  rw [toBounded, Expr.compute, Expr.computeIn, pure_bind]
  change (if (decide (0 ≤ (Int32.ofInt n).toInt) && decide ((Int32.ofInt n).toInt ≤ limit)) = true
    then pure (some (Int32.ofInt n)) else problem.refuse .origin) = _
  rw [if_pos hbounds]

theorem toTarget_expr (place : Place) : place.expr.toTarget = pure (some ⟨place, .origin⟩) := by
  cases place with
  | symbol name => rfl
  | address value =>
      change pure (some (CodeTarget.mk (.address (Int32.ofInt value.toNat).toUInt32) .origin)) = _
      rw [toUInt32_ofInt]

end Expr

theorem span_numeralExpr (value : Int) : (numeralExpr value).span = .origin := by
  cases value <;> rfl

theorem Number.span_expr (value : Number) : value.expr.span = .origin := by
  cases value with
  | constant value => exact span_numeralExpr value.toInt
  | register source => rfl

theorem Place.span_expr (place : Place) : place.expr.span = .origin := by
  cases place <;> rfl

theorem Formula.span_expr (formula : Formula) : formula.expr.span = .origin := by
  have hoperator (operator : Operator) (operands : List Expr) :
      (operator.exprOf operands).span = .origin := by
    unfold Operator.exprOf
    split
    · split <;> rfl
    · rfl
    · split <;> rfl
    · rfl
  cases formula with
  | number value => exact value.span_expr
  | unary | binary | select => exact hoperator _ _

theorem allOf_eq {α β : Type} {step : α → Reporting (Option β)} {items : List α}
    {results : List β} (h : List.Forall₂ (fun item result => step item = pure (some result)) items
      results) : allOf step items = pure (some results) := by
  induction h with
  | nil => rw [allOf]
  | cons hfirst _ ih => rw [allOf, hfirst, pure_bind, ih]; rfl

theorem allOf_numbers {values : List Number} (h : ∀ value ∈ values, value.IsWritable) :
    allOf Expr.toNumber (values.map Number.expr) = pure (some values) :=
  allOf_eq (List.forall₂_map_left_iff.mpr (List.forall₂_same.mpr fun value hvalue =>
    Expr.toNumber_expr (h value hvalue)))

/-- An operand that is lowered from what is printed for it. -/
def OperandValue.IsWritable : OperandValue → Prop
  | .number value => value.IsWritable
  | .numberList values => values.length ≤ Argument.listLimit ∧ ∀ value ∈ values, value.IsWritable
  | .registerList values => values.length ≤ Argument.listLimit
  | .byteList values => values ≠ [] ∧ values.length ≤ Argument.listLimit
  | .bitmask values | .paddedTable values => ∀ value ∈ values, value.IsWritable
  | .flag value => value = 0 ∨ value = 1
  | .target destinations => ∀ destination ∈ destinations, destination.span = .origin
  | .targetTable keys destinations =>
      (∀ destination ∈ destinations, destination.span = .origin) ∧ ∀ key ∈ keys, 0 ≤ key.toInt
  | .expression terms =>
      ∃ formula : Formula, formula.terms = terms ∧ formula.stays = true ∧ formula.IsWritable
  | _ => True

namespace Argument

theorem read_eq {α : Type} {expr : Expr} {reader : Expr → Reporting (Option α)} {value : α}
    (hspan : expr.span = .origin) (h : reader expr = pure (some value))
    (toValue : α → OperandValue) :
    (Argument.expression .origin expr).read reader toValue =
      pure (some ⟨toValue value, .origin⟩) := by
  rw [Argument.read, toExpr, pure_bind]
  change (do return (← reader expr).map fun value => Operand.mk (toValue value) expr.span) = _
  rw [h, hspan]
  rfl

theorem element_eq {α : Type} {expr : Expr} {reader : Expr → Reporting (Option α)} {value : α}
    (h : reader expr = pure (some value)) :
    element reader (.expression .origin expr) = pure (some value) := by
  rw [element, toExpr, pure_bind]
  exact h

theorem usedSlots_append {slots : List Number} (h : slots.length = Instruction.bitmaskSlots) :
    OperandValue.usedSlots slots ++
      List.replicate (Instruction.bitmaskSlots - (OperandValue.usedSlots slots).length)
        (.constant 0) = slots := by
  have hsplit := congrArg List.reverse
    (@List.takeWhile_append_dropWhile _ (· == Number.constant 0) slots.reverse)
  rw [List.reverse_append, List.reverse_reverse] at hsplit
  have hlength := congrArg List.length hsplit
  rw [List.length_append, List.length_reverse, List.length_reverse, h] at hlength
  have hzeros : (slots.reverse.takeWhile (· == Number.constant 0)).reverse =
      List.replicate (slots.reverse.takeWhile (· == Number.constant 0)).length (.constant 0) := by
    rw [List.reverse_eq_iff, List.reverse_replicate, List.eq_replicate_iff]
    exact ⟨rfl, fun value hvalue => by simpa using List.mem_takeWhile_imp hvalue⟩
  rw [hzeros] at hsplit
  rw [OperandValue.usedSlots, List.length_reverse, ← hlength, Nat.add_sub_cancel_left]
  exact hsplit

theorem toBitmask_eq {slots : List Number} (hlength : slots.length = Instruction.bitmaskSlots)
    (h : ∀ value ∈ slots, value.IsWritable) :
    (Argument.array .origin ((OperandValue.usedSlots slots).map Number.expr)).toBitmask =
      pure (some ⟨.bitmask slots, .origin⟩) := by
  have hused := usedSlots_append hlength
  have hle : ¬ Instruction.bitmaskSlots <
      ((OperandValue.usedSlots slots).map Number.expr).length := by
    rw [List.length_map, ← hlength]
    have := congrArg List.length hused
    rw [List.length_append] at this
    omega
  have hwritable : ∀ value ∈ OperandValue.usedSlots slots, value.IsWritable := fun value hvalue =>
    h value (hused ▸ List.mem_append_left _ hvalue)
  rw [toBitmask, if_neg hle, allOf_numbers hwritable, pure_bind, Option.map_some]
  exact congrArg (fun slots => pure (some (Operand.mk (.bitmask slots) .origin))) hused

theorem toPaddedTable_eq {values : List Number} (h : ∀ value ∈ values, value.IsWritable) :
    (Argument.array .origin (values.map Number.expr)).toPaddedTable =
      pure (some ⟨.paddedTable values, .origin⟩) := by
  rw [toPaddedTable, allOf_numbers h]
  rfl

theorem tableCases_eq {keys : List Int32} {destinations : List CodeTarget}
    (h : keys.length = destinations.length) :
    OperandValue.tableCases keys destinations =
      (keys.zip destinations).map fun entry => (entry.1.toInt, entry.2.place) := by
  apply List.ext_getElem
  · simp [OperandValue.tableCases, h]
  · intro index hindex hother
    have hkey : index < keys.length := by simpa [OperandValue.tableCases, h] using hindex
    simp [OperandValue.tableCases, hkey]

theorem toCase_eq {key : Int32} {destination : CodeTarget} (hkey : 0 ≤ key.toInt)
    (hlimit : key.toInt ≤ 0xfffe) (hspan : destination.span = .origin) :
    toCase (PrintedOperand.tableCase (key.toInt, destination.place)) =
      pure (some (key, destination)) := by
  obtain ⟨n, hn⟩ := Int.eq_ofNat_of_zero_le hkey
  have hback : Int32.ofInt (n : Int) = key := by rw [← hn, Int32.ofInt_toInt]
  have hread : (numeralExpr key.toInt).toCaseKey = pure (some key) := by
    rw [hn, ← hback]
    exact Expr.toBounded_literal _ (by omega) (by decide)
  rw [toCase, PrintedOperand.tableCase, hread, pure_bind, Expr.toTarget_expr, pure_bind, ← hspan]

theorem toTargetTable_eq {keys : List Int32} {destinations : List CodeTarget}
    (hlength : keys.length = destinations.length)
    (hkeys : ∀ key ∈ keys, 0 ≤ key.toInt ∧ key.toInt ≤ 0xfffe)
    (hspans : ∀ destination ∈ destinations, destination.span = .origin) :
    (Argument.jumpTable .origin ((OperandValue.tableCases keys destinations).map
      PrintedOperand.tableCase)).toTargetTable =
        pure (some ⟨.targetTable keys destinations, .origin⟩) := by
  have hcases : allOf toCase ((OperandValue.tableCases keys destinations).map
      PrintedOperand.tableCase) = pure (some (keys.zip destinations)) := by
    rw [tableCases_eq hlength, List.map_map]
    refine allOf_eq (List.forall₂_map_left_iff.mpr (List.forall₂_same.mpr fun entry hentry => ?_))
    obtain ⟨hkey, hdestination⟩ := List.of_mem_zip hentry
    exact toCase_eq (hkeys _ hkey).1 (hkeys _ hkey).2 (hspans _ hdestination)
  rw [toTargetTable, hcases, pure_bind, Option.map_some,
    List.map_fst_zip (Nat.le_of_eq hlength), List.map_snd_zip (Nat.le_of_eq hlength.symm)]

/-- Every operand that stands alone comes back from what is printed for it. -/
theorem exists_single {place : Slot} {value : OperandValue} (hholds : place.Holds value)
    (hwritable : value.IsWritable) (hflag : place.isFlag = false) (hlist : place.isList = false) :
    ∃ printed : PrintedOperand, value.PrintsAs [printed] ∧
      printed.argument.toOperand place = pure (some ⟨value, .origin⟩) := by
  have hbounded {limit : Int} {problem : OperandProblem} {value : UInt32} (h : value.toNat ≤ limit)
      (hlimit : limit < 0x80000000) (toValue : UInt32 → OperandValue) :
      (PrintedOperand.unsigned value).argument.read (Expr.toBounded limit problem)
        (fun found => toValue found.toUInt32) = pure (some ⟨toValue value, .origin⟩) := by
    have hread := read_eq rfl (Expr.toBounded_literal problem h hlimit) fun found =>
      toValue found.toUInt32
    rwa [toUInt32_ofInt] at hread
  cases place <;> cases value <;> first | exact hholds.elim | skip
  case flag.flag => cases hflag
  case numberList.numberList | registerList.registerList | byteList.byteList => cases hlist
  case number.number value =>
    exact ⟨_, .number value, read_eq value.span_expr (Expr.toNumber_expr hwritable) _⟩
  case register.register source => exact ⟨_, .register source, read_eq rfl rfl _⟩
  case byte.byte value =>
    exact ⟨_, .byte value, hbounded (Nat.cast_le.mpr (Nat.le_of_lt_succ hholds)) (by decide) _⟩
  case messageId.messageId value =>
    exact ⟨_, .messageId value,
      hbounded (Nat.cast_le.mpr (Nat.le_of_lt_succ hholds)) (by decide) _⟩
  case string.string text => exact ⟨_, .string text, read_eq rfl rfl _⟩
  case bitmask.bitmask slots => exact ⟨_, .bitmask slots, toBitmask_eq hholds hwritable⟩
  case target.target destinations =>
    obtain ⟨⟨destination, span⟩, rfl⟩ := List.length_eq_one_iff.mp hholds
    obtain rfl : span = .origin := hwritable _ (List.mem_singleton_self _)
    exact ⟨_, .target ⟨destination, .origin⟩,
      read_eq destination.span_expr (Expr.toTarget_expr destination) _⟩
  case targetTable.targetTable keys destinations =>
    exact ⟨_, .targetTable keys destinations, toTargetTable_eq hholds.1
      (fun key hkey => ⟨hwritable.2 key hkey, hholds.2 key hkey⟩) hwritable.1⟩
  case paddedTable.paddedTable values =>
    exact ⟨_, .paddedTable values, toPaddedTable_eq hwritable⟩
  case expression.expression terms =>
    obtain ⟨formula, rfl, hstays, hnumbers⟩ := hwritable
    exact ⟨_, .expression formula, read_eq formula.span_expr
      (Expr.toTerms_expr hstays hnumbers) _⟩

theorem allOf_elements {α β : Type} {reader : Expr → Reporting (Option β)} {items : List α}
    {expr : α → Expr} {result : α → β}
    (h : ∀ item ∈ items, reader (expr item) = pure (some (result item))) :
    allOf (element reader) (items.map fun item => .expression .origin (expr item)) =
      pure (some (items.map result)) :=
  allOf_eq (List.forall₂_map_left_iff.mpr (List.forall₂_map_right_iff.mpr
    (List.forall₂_same.mpr fun item hitem => element_eq (h item hitem))))

theorem map_found {α β : Type} {step : Reporting (Option α)} {found : α}
    (h : step = pure (some found)) (change : α → β) :
    (do return (← step).map change : Reporting (Option β)) = pure (some (change found)) := by
  rw [h]
  rfl

theorem toUInt8_ofInt (value : UInt8) : (Int32.ofInt value.toNat).toUInt32.toUInt8 = value := by
  have hword := toUInt32_ofInt value.toUInt32
  rw [UInt8.toNat_toUInt32] at hword
  rw [hword, UInt8.toUInt8_toUInt32]

/-- A list comes back from what is printed for its items. -/
theorem exists_list {place : Slot} {value : OperandValue} (hholds : place.Holds value)
    (hwritable : value.IsWritable) (hlist : place.isList = true) :
    ∃ printed : List PrintedOperand, value.PrintsAs printed ∧
      toList place (printed.map PrintedOperand.argument) .origin =
        pure (some ⟨value, .origin⟩) := by
  cases place <;> cases value <;> first | exact hholds.elim | cases hlist; done | skip
  case numberList.numberList values =>
    have hall := allOf_elements fun value hvalue => Expr.toNumber_expr (hwritable.2 value hvalue)
    rw [List.map_id'] at hall
    refine ⟨_, .numberList values, ?_⟩
    rw [List.map_map, toList, if_neg (by rw [List.length_map]; exact Nat.not_lt.mpr hwritable.1)]
    exact map_found hall _
  case registerList.registerList values =>
    have hall : allOf (element Expr.toRegister) (values.map fun source =>
        .expression .origin (.register .origin source source.name)) =
          pure (some (values.map fun source => source)) := allOf_elements fun source _ => rfl
    rw [List.map_id'] at hall
    refine ⟨_, .registerList values, ?_⟩
    rw [List.map_map, toList, if_neg (by rw [List.length_map]; exact Nat.not_lt.mpr hwritable)]
    exact map_found hall _
  case byteList.byteList values =>
    obtain ⟨first, rest, rfl⟩ := List.exists_cons_of_ne_nil hwritable.1
    have hread (value : UInt8) :
        (Expr.literal .origin ⟨Int32.ofInt value.toNat, .integer⟩).toByte =
          pure (some (Int32.ofInt value.toNat)) := by
      have := value.toNat_lt
      exact Expr.toBounded_literal _ (by omega) (by decide)
    have hall := allOf_elements fun (value : UInt8) (_ : value ∈ first :: rest) => hread value
    have hbytes : ((first :: rest).map fun value => Int32.ofInt value.toNat).map
        (fun value => value.toUInt32.toUInt8) = first :: rest := by
      rw [List.map_map]
      exact (List.map_congr_left fun value _ => toUInt8_ofInt value).trans (List.map_id' _)
    refine ⟨_, .byteList first rest, ?_⟩
    rw [List.map_map, toList, if_neg (by rw [List.length_map]; exact Nat.not_lt.mpr hwritable.2)]
    · exact (map_found hall _).trans (congrArg
        (fun bytes => pure (some (Operand.mk (.byteList bytes) .origin))) hbytes)
    · exact fun h => by cases h
    · exact fun h => by cases h

end Argument

namespace Slot

/-- Arguments that are the operands of slots. A list takes all that are left, so it is last. -/
inductive Fills (flags : List Flag) : List Slot → List OperandValue → List Argument → Prop
  | nil : Fills flags [] [] []
  | flag {name : Flag} {normal : UInt8} {slots : List Slot} {values : List OperandValue}
      {arguments : List Argument} (h : Fills flags slots values arguments) :
      Fills flags (.flag name normal :: slots)
        (.flag (flagValue normal (flags.contains name)).toUInt32 :: values) arguments
  | single {place : Slot} {value : OperandValue} {argument : Argument} {slots : List Slot}
      {values : List OperandValue} {arguments : List Argument} (hflag : place.isFlag = false)
      (hlist : place.isList = false)
      (hfirst : argument.toOperand place = pure (some ⟨value, .origin⟩))
      (h : Fills flags slots values arguments) :
      Fills flags (place :: slots) (value :: values) (argument :: arguments)
  | list {place : Slot} {value : OperandValue} {arguments : List Argument}
      (hlist : place.isList = true)
      (h : Argument.toList place arguments .origin = pure (some ⟨value, .origin⟩)) :
      Fills flags [place] [value] arguments

variable {flags : List Flag} {slots : List Slot} {values : List OperandValue}
  {arguments : List Argument}

theorem Fills.fill (h : Fills flags slots values arguments) :
    fill flags .origin slots arguments = pure (some (values.map (⟨·, .origin⟩))) := by
  induction h with
  | nil => rfl
  | flag h ih =>
      rw [Slot.fill]
      simp only [pure_bind, ih]
      rfl
  | @single place value argument slots values arguments hflag hlist hfirst h ih =>
      cases place with
      | flag => cases hflag
      | _ =>
          rw [Slot.fill]
          · simp only [hlist, hfirst, pure_bind, ih]
            rfl
          · exact fun _ _ h => by cases h
  | @list place value arguments hlist h =>
      cases place with
      | numberList | registerList | byteList =>
          simp only [Slot.fill, hlist, if_true, h, pure_bind]
          rfl
      | _ => cases hlist

end Slot

end NovelAsm
