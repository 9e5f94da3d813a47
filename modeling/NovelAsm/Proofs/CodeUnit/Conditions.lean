import NovelAsm.CodeUnit.Lowering
import NovelAsm.Proofs.CodeUnit.Forms
import NovelAsm.Proofs.Erasure.Lowering
import NovelAsm.Proofs.Expr.Machine

/-!
Conditional jumps against the values of their conditions. A jump compares two numbers; the
condition that it was written with is an expression with a value of its own, which `exp`
leaves on the stack. The jump should be taken exactly when that value is not zero.

The two ways part on a comparison of an integer with a real. The expression compares both
as reals, while the jump holds the numbers as they are (`not_taken_of_mixed_kinds`). That is
the only difference (`takes?_eq_iff`): negations, masks and bit tests agree.
-/

namespace NovelAsm

open Reporting

namespace Condition

/-- Whether a condition holds of the two numbers of a jump. -/
def holds : Condition → Int32 → Int32 → Bool
  | .equal, a, b => a.toInt == b.toInt
  | .notEqual, a, b => a.toInt != b.toInt
  | .greaterEqual, a, b => b.toInt ≤ a.toInt
  | .greater, a, b => b.toInt < a.toInt
  | .lessEqual, a, b => a.toInt ≤ b.toInt
  | .less, a, b => a.toInt < b.toInt
  | .masked, a, b => a &&& b != 0
  | .bitSet, a, b => a.toBitVec.getLsbD b.toInt.toNat

/-- The operator that compares as a condition does. -/
def comparer : Condition → Operator
  | .equal => .equal
  | .notEqual => .notEqual
  | .greaterEqual => .greaterEqual
  | .greater => .greater
  | .lessEqual => .lessEqual
  | .less => .less
  | .masked | .bitSet => .bitAnd

/-- Whether a condition holds of the values of two computations, if both have one. -/
def meets? (registers : Register → Int32) (condition : Condition) (left right : Computation) :
    Option Bool :=
  (left.valueIn registers).bind fun a => (right.valueIn registers).map fun b => condition.holds a b

end Condition

/-- Whether a conditional jump is taken when the registers hold some values. -/
def Instruction.takes? (registers : Register → Int32) (instruction : Instruction) : Option Bool :=
  match Condition.ofCode? (instruction.subtype &&& ~~~negatedBit), instruction.operands with
  | some condition, ⟨.number left, _⟩ :: ⟨.number right, _⟩ :: _ =>
      some (condition.holds (left.valueIn registers) (right.valueIn registers) !=
        (instruction.subtype &&& negatedBit != 0))
  | _, _ => none

namespace Comparison

/-- What the sides of a comparison come to. -/
def sides (comparison : Comparison) : Computation × Computation :=
  ((comparison.left.compute []).1, (comparison.right.compute []).1)

/-- A comparison of an integer with a real. -/
def IsMixed (comparison : Comparison) : Prop := comparison.sides.1.kind ≠ comparison.sides.2.kind

/-- Whether a comparison holds of its sides as they are. -/
def asWritten? (registers : Register → Int32) (comparison : Comparison) : Option Bool :=
  comparison.condition.meets? registers comparison.sides.1 comparison.sides.2

/-- Whether a comparison holds of its sides as reals. -/
def asReals? (registers : Register → Int32) (comparison : Comparison) : Option Bool :=
  comparison.condition.meets? registers (comparison.sides.1.promote []).1
    (comparison.sides.2.promote []).1

end Comparison

variable {registers : Register → Int32}

/-- A step that is the same without places has an answer that does not depend on what was
reported before. -/
theorem Computation.Keeps.answer {step other : Reporting Computation}
    (h : ∀ front, Computation.Keeps front step other) :
    Ensures step fun computation => computation.bare = (step []).1.bare := by
  intro start
  have hstart : other (Diagnostics.bare start) = (((step start).1).bare, _) := h [] start
  have hempty : other (Diagnostics.bare start ++ []) = (((step []).1).bare, _) :=
    h (Diagnostics.bare start) []
  rw [List.append_nil, hstart] at hempty
  exact congrArg Prod.fst hempty

/-- What an expression comes to does not depend on what was reported before. -/
theorem Expr.compute_answer (expr : Expr) :
    Ensures expr.compute fun computation => computation.bare = (expr.compute []).1.bare :=
  Computation.Keeps.answer fun _ => compute_erases expr

namespace Computation

theorem valueIn_congr {computation other : Computation} (h : computation.bare = other.bare) :
    computation.valueIn registers = other.valueIn registers := by
  change computation.bare.valueIn registers = other.bare.valueIn registers
  rw [h]

theorem kind_congr {computation other : Computation} (h : computation.bare = other.bare) :
    computation.kind = other.kind := by
  change computation.bare.kind = other.bare.kind
  rw [h]

theorem promote_answer {computation other : Computation} (h : computation.bare = other.bare) :
    Ensures computation.promote fun promoted => promoted.bare = (other.promote []).1.bare := by
  intro start
  have hanswer := Keeps.answer (fun _ => promote_erases computation) start
  have herases (value : Computation) : Keeps [] value.promote value.bare.promote :=
    promote_erases value
  have hleft := congrArg Prod.fst (herases computation [])
  have hright := congrArg Prod.fst (herases other [])
  rw [h] at hleft
  rw [hanswer]
  exact hleft.symm.trans hright

/-- A number that stands for a computation reads its value. -/
theorem valueIn_of_number? {computation : Computation} {number : Number}
    (h : computation.number? = some number) :
    computation.valueIn registers = some (number.valueIn registers) := by
  obtain ⟨kind, outcome, span⟩ := computation
  cases outcome with
  | invalid => cases h
  | constant value =>
      cases h
      rfl
  | terms terms =>
      simp only [number?] at h
      split at h
      · contradiction
      · rename_i hterms
        cases h
        cases hterms
        rfl
      · contradiction

end Computation

namespace Operator

theorem fit?_toInt (value : Int32) : fit? value.toInt = some value := by
  have hlow := value.le_toInt
  have hhigh := value.toInt_lt
  have hfits : (-0x80000000 ≤ value.toInt && value.toInt ≤ 0x7fffffff) = true := by
    simp only [Bool.and_eq_true, decide_eq_true_eq]
    omega
  rw [fit?, if_pos hfits, Int32.ofInt_toInt]

/-- The machine's truth value of a condition. -/
def truthValue (condition : Bool) : Int32 := if condition then -1 else 0

theorem fit?_truth (condition : Bool) : fit? (truth condition) = some (truthValue condition) := by
  cases condition <;> decide

@[simp] theorem truthValue_ne_zero (condition : Bool) :
    (truthValue condition != 0) = condition := by
  cases condition <;> decide

theorem value?_bitAnd (a b : Int32) : Operator.bitAnd.value? [a, b] = some (a &&& b) := by
  simp only [value?, fold?_eq, fault?, exactValue?, Option.map_some, fit?_toInt]

theorem value?_isZero (a : Int32) :
    Operator.isZero.value? [a] = some (truthValue (a == 0)) := by
  have hzero : (a.toInt == 0) = (a == 0) := by
    rw [Bool.eq_iff_iff, beq_iff_eq, beq_iff_eq, ← Int32.toInt_inj]
    rfl
  simp only [value?, fold?_eq, fault?, exactValue?, Option.map_some, hzero, fit?_truth]

theorem value?_eq_some {operator : Operator} {operands : List Int32} {value : Int32}
    (h : operator.value? operands = some value) :
    operator.fault? operands = none ∧
      ∃ exact, operator.exactValue? operands = some exact ∧ fit? exact = some value := by
  simp only [value?, fold?_eq] at h
  cases hfault : operator.fault? operands with
  | some problem =>
      rw [hfault] at h
      contradiction
  | none =>
      rw [hfault] at h
      cases hexact : operator.exactValue? operands with
      | none =>
          rw [hexact] at h
          contradiction
      | some exact =>
          refine ⟨rfl, exact, rfl, ?_⟩
          rw [hexact, Option.map_some] at h
          cases hfit : fit? exact with
          | none =>
              rw [hfit] at h
              contradiction
          | some number =>
              rw [hfit] at h
              exact h

theorem fit?_eq_some {exact : Int} {value : Int32} (h : fit? exact = some value) :
    -0x80000000 ≤ exact ∧ exact ≤ 0x7fffffff ∧ value = Int32.ofInt exact := by
  simp only [fit?, Bool.and_eq_true, decide_eq_true_eq] at h
  split at h
  · rename_i hbounds
    exact ⟨hbounds.1, hbounds.2, (Option.some.inj h).symm⟩
  · contradiction

/-- A power of two as a word. -/
theorem toBitVec_two_pow (n : Nat) :
    (Int32.ofInt ((2 ^ n : Nat) : Int)).toBitVec = BitVec.twoPow 32 n := by
  change BitVec.ofInt 32 _ = _
  rw [BitVec.ofInt_natCast]
  apply BitVec.eq_of_toNat_eq
  simp

theorem and_twoPow_ne_zero {mask : Int32} {n : Nat} (hn : n < 32)
    (hmask : mask.toBitVec = BitVec.twoPow 32 n) (a : Int32) :
    (a &&& mask != 0) = a.toBitVec.getLsbD n := by
  have hzero : a &&& mask = 0 ↔ a.toBitVec.getLsbD n = false := by
    rw [← Int32.toBitVec_inj, Int32.toBitVec_and, hmask, BitVec.and_twoPow]
    cases a.toBitVec.getLsbD n with
    | false => simp
    | true =>
        have hbit : (BitVec.twoPow 32 n).getLsbD n = true := by simp [hn]
        simp only [if_true, Bool.true_eq_false, iff_false]
        intro h
        rw [h] at hbit
        simp at hbit
  cases hbit : a.toBitVec.getLsbD n with
  | false => simp [hzero.mpr hbit]
  | true =>
      have hne : a &&& mask ≠ 0 := fun h => by simp [hzero.mp h] at hbit
      simpa using hne

/-- The mask `1 << bit` has a value only for the bits below the sign, and then selects its bit. -/
theorem and_shiftLeft_ne_zero {mask bit : Int32}
    (h : Operator.shiftLeft.value? [1, bit] = some mask) (a : Int32) :
    (a &&& mask != 0) = Condition.bitSet.holds a bit := by
  obtain ⟨hfault, exact, hexact, hfit⟩ := value?_eq_some h
  obtain ⟨_, hhigh, rfl⟩ := fit?_eq_some hfit
  have hbit : bit.toInt.toNat < 32 := by
    simp only [fault?, Bool.or_eq_true, decide_eq_true_eq] at hfault
    split at hfault
    · contradiction
    · omega
  refine and_twoPow_ne_zero hbit ?_ a
  have hone : (1 : Int32).toInt = 1 := by decide
  simp only [exactValue?, hone, Int.one_mul, Option.some.injEq] at hexact
  rw [← hexact]
  exact toBitVec_two_pow bit.toInt.toNat

end Operator

namespace Computation

variable {operator : Operator} {left right : Computation} {kind : ValueKind} {span : Span}

theorem mapM_valueIn_pair (left right : Computation) :
    ([left, right].mapM (valueIn registers)) =
      (left.valueIn registers).bind fun a => (right.valueIn registers).map fun b => [a, b] := by
  simp only [List.mapM_cons, List.mapM_nil]
  cases left.valueIn registers with
  | none => rfl
  | some a => cases right.valueIn registers <;> rfl

theorem applyBinary_valueIn (registers : Register → Int32) (hleft : left.Sound)
    (hright : right.Sound) (harity : operator.arity = 2) :
    Ensures (applyBinary operator left right kind span) fun result =>
      result.isValid = true →
        result.valueIn registers =
          (left.valueIn registers).bind fun a =>
            (right.valueIn registers).bind fun b => operator.value? [a, b] := by
  simp only [applyBinary]
  split
  · exact ensures_invalid .integer span
  · split
    · exact Ensures.behind fun _ => ensures_invalid .integer span
    · refine (apply_valueIn registers (by simpa using ⟨hleft, hright⟩)
        harity).mono ?_
      intro result hresult hvalid
      rw [(hresult hvalid).2, mapM_valueIn_pair]
      cases left.valueIn registers with
      | none => rfl
      | some a => cases right.valueIn registers <;> rfl

/-- An operator that answers whether a condition holds. -/
structure Decides (operator : Operator) (condition : Condition) : Prop where
  arity : operator.arity = 2
  value? : ∀ a b, operator.value? [a, b] = some (Operator.truthValue (condition.holds a b))

theorem Decides.applyBinary (registers : Register → Int32) {condition : Condition}
    (h : Decides operator condition) (hleft : left.Sound) (hright : right.Sound) :
    Ensures (applyBinary operator left right kind span) fun result =>
      result.isValid = true →
        result.valueIn registers =
          (condition.meets? registers left right).map Operator.truthValue := by
  refine (applyBinary_valueIn registers hleft hright h.arity).mono ?_
  intro result hresult hvalid
  rw [hresult hvalid, Condition.meets?]
  cases left.valueIn registers with
  | none => rfl
  | some a =>
      cases right.valueIn registers with
      | none => rfl
      | some b => exact h.value? a b

/-- A comparison as an expression: numbers of two kinds are compared as reals. -/
def compared? (registers : Register → Int32) (condition : Condition) (left right : Computation) :
    Option Bool :=
  if left.kind = right.kind then condition.meets? registers left right
  else condition.meets? registers (left.promote []).1 (right.promote []).1

theorem Decides.comparison {condition : Condition} {leftSide rightSide : Computation}
    (h : Decides operator condition) (hleft : left.Sound) (hright : right.Sound)
    (hleftSide : left.bare = leftSide.bare) (hrightSide : right.bare = rightSide.bare) :
    Ensures (comparison operator left right span) fun result =>
      result.isValid = true →
        result.valueIn registers =
          (compared? registers condition leftSide rightSide).map Operator.truthValue := by
  simp only [Computation.comparison, compared?, ← kind_congr hleftSide, ← kind_congr hrightSide]
  by_cases hkind : left.kind = right.kind
  · rw [if_neg (by simpa using hkind), if_pos hkind]
    refine (h.applyBinary registers hleft hright).mono ?_
    intro result hresult hvalid
    rw [hresult hvalid, Condition.meets?, valueIn_congr hleftSide, valueIn_congr hrightSide,
      Condition.meets?]
  · rw [if_pos (by simpa using hkind), if_neg hkind]
    refine ((promote_sound hleft).and (promote_answer hleftSide)).bind ?_
    rintro left ⟨hleft, hleftSide⟩
    refine ((promote_sound hright).and (promote_answer hrightSide)).bind ?_
    rintro right ⟨hright, hrightSide⟩
    refine (h.applyBinary registers hleft hright).mono ?_
    intro result hresult hvalid
    rw [hresult hvalid, Condition.meets?, valueIn_congr hleftSide, valueIn_congr hrightSide,
      Condition.meets?]

theorem requireInteger_kind (spelling : String) (computation : Computation) :
    Ensures (requireInteger spelling computation) fun isInteger =>
      isInteger = true → computation.kind = .integer := by
  simp only [requireInteger]
  split
  · exact Ensures.behind fun _ => Ensures.pure fun h => Bool.noConfusion h
  · rename_i hreal
    refine Ensures.pure fun _ => ?_
    cases hkind : computation.kind with
    | integer => rfl
    | real => simp [isReal, hkind] at hreal

/-- An operator on integers has a value on integers alone. -/
theorem integral_valueIn (registers : Register → Int32) (spelling : String) (hleft : left.Sound)
    (hright : right.Sound) (harity : operator.arity = 2) :
    Ensures (integral operator spelling left right span) fun result =>
      result.isValid = true →
        left.kind = .integer ∧ right.kind = .integer ∧
          result.valueIn registers =
            (left.valueIn registers).bind fun a =>
              (right.valueIn registers).bind fun b => operator.value? [a, b] := by
  have hintegers : Ensures (requireIntegers spelling left right) fun areIntegers =>
      areIntegers = true → left.kind = .integer ∧ right.kind = .integer := by
    refine (requireInteger_kind spelling left).bind ?_
    intro isInteger hinteger
    split
    · rename_i htrue
      exact (requireInteger_kind spelling right).mono fun _ h hright =>
        ⟨hinteger htrue, h hright⟩
    · exact Ensures.pure fun h => Bool.noConfusion h
  refine hintegers.bind ?_
  intro areIntegers hkinds
  split
  · rename_i htrue
    refine (applyBinary_valueIn registers hleft hright harity).mono ?_
    intro result hresult hvalid
    exact ⟨(hkinds htrue).1, (hkinds htrue).2, hresult hvalid⟩
  · exact ensures_invalid .integer span

theorem decides {condition : Condition} (harity : operator.arity = 2)
    (hfault : ∀ operands, operator.fault? operands = none)
    (hexact : ∀ a b, operator.exactValue? [a, b] = some (Operator.truth (condition.holds a b))) :
    Decides operator condition := by
  constructor
  · exact harity
  · intro a b
    simp only [Operator.value?, Operator.fold?_eq, hfault, hexact, Option.map_some,
      Operator.fit?_truth]

theorem isValid_of_valueIn {computation : Computation} {value : Int32}
    (h : computation.valueIn registers = some value) : computation.isValid = true := by
  obtain ⟨kind, outcome, span⟩ := computation
  cases outcome with
  | invalid => cases h
  | constant _ => rfl
  | terms _ => rfl

end Computation

namespace Expr

variable {operator : Operator} {span : Span}

/-- An outcome of an expression in the place where it stands. -/
def Stands (expr : Expr) (computation : Computation) : Prop :=
  computation.Sound ∧ computation.bare = (expr.compute []).1.bare

theorem compute_stands (expr : Expr) : Ensures expr.compute expr.Stands :=
  (compute_sound expr).and expr.compute_answer

/-- An operator with valid operands. -/
theorem compute_binary {written : BinaryOperator} {left right : Expr} {P : Computation → Prop}
    (hinvalid : ∀ computation, computation.isValid = false → P computation)
    (h : ∀ a b, left.Stands a → right.Stands b → a.isValid = true → b.isValid = true →
      Ensures (Computation.binary written a b span) P) :
    Ensures (Expr.binary span written left right).compute P := by
  simp only [compute, computeIn]
  refine left.compute_stands.bind ?_
  intro a ha
  refine right.compute_stands.bind ?_
  intro b hb
  by_cases hvalid : (!a.isValid || !b.isValid) = true
  · simp only [Computation.binary, if_pos hvalid]
    exact Ensures.pure (hinvalid (.invalid span) rfl)
  · have hboth : a.isValid = true ∧ b.isValid = true := by simpa using hvalid
    exact h a b ha hb hboth.1 hboth.2

theorem compute_comparison (registers : Register → Int32) {written : BinaryOperator}
    {condition : Condition} (h : Computation.Decides operator condition)
    (hwritten : ∀ a b : Computation, a.isValid = true → b.isValid = true →
      Computation.binary written a b span = Computation.comparison operator a b span)
    (left right : Expr) :
    Ensures (Expr.binary span written left right).compute fun result =>
      result.isValid = true →
        result.valueIn registers =
          (Computation.compared? registers condition (left.compute []).1
            (right.compute []).1).map Operator.truthValue := by
  refine compute_binary (fun _ hinvalid hvalid => ?_) ?_
  · rw [hinvalid] at hvalid
    contradiction
  intro a b ha hb havalid hbvalid
  rw [hwritten a b havalid hbvalid]
  exact h.comparison ha.1 hb.1 ha.2 hb.2

/-- An operator on integers that has a value has integers on both sides. -/
theorem compute_integral (registers : Register → Int32) {operator : Operator}
    {written : BinaryOperator} {spelling : String} {span : Span}
    (hwritten : ∀ a b : Computation, a.isValid = true → b.isValid = true →
      Computation.binary written a b span = Computation.integral operator spelling a b span)
    (harity : operator.arity = 2) (left right : Expr) :
    Ensures (Expr.binary span written left right).compute fun result =>
      ∀ value, result.valueIn registers = some value →
        (left.compute []).1.kind = .integer ∧ (right.compute []).1.kind = .integer ∧
          ∃ a b, (left.compute []).1.valueIn registers = some a ∧
            (right.compute []).1.valueIn registers = some b ∧
              operator.value? [a, b] = some value := by
  refine compute_binary (fun _ hinvalid value hvalue => ?_) ?_
  · rw [Computation.isValid_of_valueIn hvalue] at hinvalid
    contradiction
  intro a b ha hb havalid hbvalid
  rw [hwritten a b havalid hbvalid, ← Computation.kind_congr ha.2, ← Computation.kind_congr hb.2,
    ← Computation.valueIn_congr ha.2, ← Computation.valueIn_congr hb.2]
  refine (Computation.integral_valueIn registers spelling ha.1 hb.1 harity).mono ?_
  intro result hresult value hvalue
  obtain ⟨hleft, hright, heq⟩ := hresult (Computation.isValid_of_valueIn hvalue)
  rw [heq] at hvalue
  obtain ⟨x, hx, hvalue⟩ := Option.bind_eq_some_iff.mp hvalue
  obtain ⟨y, hy, hvalue⟩ := Option.bind_eq_some_iff.mp hvalue
  exact ⟨hleft, hright, x, y, hx, hy, hvalue⟩

/-- A mask of an expression, with the two values that it is made of. -/
theorem compute_bitAnd (registers : Register → Int32) (span : Span) (left right : Expr) :
    Ensures (Expr.binary span .bitAnd left right).compute fun result =>
      ∀ value, result.valueIn registers = some value →
        (left.compute []).1.kind = .integer ∧ (right.compute []).1.kind = .integer ∧
          ∃ a b, (left.compute []).1.valueIn registers = some a ∧
            (right.compute []).1.valueIn registers = some b ∧ value = a &&& b := by
  have hwritten (a b : Computation) (ha : a.isValid = true) (hb : b.isValid = true) :
      Computation.binary .bitAnd a b span = Computation.integral .bitAnd "&" a b span := by
    simp only [Computation.binary, ha, hb]
    rfl
  refine (compute_integral registers hwritten rfl left right).mono ?_
  intro result hresult value hvalue
  obtain ⟨hleft, hright, a, b, ha, hb, hand⟩ := hresult value hvalue
  rw [Operator.value?_bitAnd] at hand
  exact ⟨hleft, hright, a, b, ha, hb, (Option.some.inj hand).symm⟩

/-- The value of `1 << bit`, with the value of the bit. -/
theorem compute_shiftLeft_one {mask : Int32} (span place : Span) (bit : Expr)
    (h : ((Expr.binary span .shiftLeft (.literal place ⟨1, .integer⟩) bit).compute []).1.valueIn
      registers = some mask) :
    (bit.compute []).1.kind = .integer ∧
      ∃ b, (bit.compute []).1.valueIn registers = some b ∧
        Operator.shiftLeft.value? [1, b] = some mask := by
  have hwritten (a b : Computation) (ha : a.isValid = true) (hb : b.isValid = true) :
      Computation.binary .shiftLeft a b span = Computation.integral .shiftLeft "<<" a b span := by
    simp only [Computation.binary, ha, hb]
    rfl
  obtain ⟨_, hkind, a, b, ha, hb, hvalue⟩ := compute_integral registers hwritten rfl
    (.literal place ⟨1, .integer⟩) bit [] mask h
  cases ha
  exact ⟨hkind, b, hb, hvalue⟩

end Expr

namespace Comparison

/-- Whether a comparison holds as an expression. -/
def asExpression? (registers : Register → Int32) (comparison : Comparison) : Option Bool :=
  Computation.compared? registers comparison.condition comparison.sides.1 comparison.sides.2

/-- A comparison of an expression holds if the value of the expression is not zero. -/
theorem comparison_value {written : BinaryOperator} {operator : Operator} {condition : Condition}
    (h : Computation.Decides operator condition)
    (hwritten : ∀ a b span, a.isValid = true → b.isValid = true →
      Computation.binary written a b span = Computation.comparison operator a b span)
    (negated : Bool) (left right : Expr) (span : Span) :
    Ensures (Expr.binary span written left right).compute fun result =>
      ∀ value, result.valueIn registers = some value →
        asExpression? registers ⟨condition, negated, left, right⟩ = some (value != 0) := by
  refine (Expr.compute_comparison registers h (fun a b => hwritten a b span)
    left right).mono ?_
  intro result hresult value hvalue
  rw [hresult (Computation.isValid_of_valueIn hvalue)] at hvalue
  obtain ⟨outcome, houtcome, rfl⟩ := Option.map_eq_some_iff.mp hvalue
  rw [Operator.truthValue_ne_zero]
  exact houtcome

/-- The outcome of a comparison of two integers. -/
theorem asExpression?_of_integers (comparison : Comparison) {a b : Int32}
    (hleft : comparison.sides.1.kind = .integer) (hright : comparison.sides.2.kind = .integer)
    (ha : comparison.sides.1.valueIn registers = some a)
    (hb : comparison.sides.2.valueIn registers = some b) :
    comparison.asExpression? registers = some (comparison.condition.holds a b) := by
  simp only [asExpression?, Computation.compared?, hleft, hright, if_true, Condition.meets?, ha, hb,
    Option.bind_some, Option.map_some]

/-- A mask of an expression selects a bit if the value of the expression is not zero. -/
theorem masked_value (negated : Bool) (left right : Expr) (span : Span) :
    Ensures (Expr.binary span .bitAnd left right).compute fun result =>
      ∀ value, result.valueIn registers = some value →
        asExpression? registers ⟨.masked, negated, left, right⟩ = some (value != 0) := by
  refine (Expr.compute_bitAnd registers span left right).mono ?_
  intro result hresult value hvalue
  obtain ⟨hleft, hright, a, b, ha, hb, rfl⟩ := hresult value hvalue
  exact asExpression?_of_integers ⟨.masked, negated, left, right⟩
    hleft hright ha hb

theorem bitOf?_eq_some {mask bit : Expr} (h : bitOf? mask = some bit) :
    ∃ span place, mask = .binary span .shiftLeft (.literal place ⟨1, .integer⟩) bit := by
  unfold bitOf? at h
  split at h
  · cases h
    exact ⟨_, _, rfl⟩
  · contradiction

/-- A bit of an expression is set if the value of the expression is not zero. -/
theorem bitSet_value {right bit : Expr} (h : bitOf? right = some bit) (negated : Bool)
    (left : Expr) (span : Span) :
    Ensures (Expr.binary span .bitAnd left right).compute fun result =>
      ∀ value, result.valueIn registers = some value →
        asExpression? registers ⟨.bitSet, negated, left, bit⟩ = some (value != 0) := by
  obtain ⟨place, spot, rfl⟩ := bitOf?_eq_some h
  refine (Expr.compute_bitAnd registers span left _).mono ?_
  intro result hresult value hvalue
  obtain ⟨hleft, _, a, mask, ha, hmask, rfl⟩ := hresult value hvalue
  obtain ⟨hbit, b, hb, hshift⟩ := Expr.compute_shiftLeft_one place spot bit hmask
  rw [Operator.and_shiftLeft_ne_zero hshift a]
  exact asExpression?_of_integers ⟨.bitSet, negated, left, bit⟩ hleft hbit ha hb

theorem ofOperator?_decides {written : BinaryOperator} {condition : Condition}
    (h : ofOperator? written = some condition) :
    Computation.Decides condition.comparer condition ∧
      ∀ a b span, a.isValid = true → b.isValid = true →
        Computation.binary written a b span =
          Computation.comparison condition.comparer a b span := by
  cases written with
  | equal | notEqual | less | lessEqual | greater | greaterEqual =>
      cases h
      constructor
      · exact Computation.decides rfl (fun _ => rfl) fun _ _ => rfl
      · intro a b span ha hb
        simp only [Computation.binary, ha, hb]
        rfl
  | _ => contradiction

/-- The comparison of an operator holds if the value of the operator is not zero. -/
theorem ofBinary?_value (registers : Register → Int32) {negated : Bool} {written : BinaryOperator}
    {left right : Expr}
    {comparison : Comparison} (h : ofBinary? negated written left right = some comparison)
    (span : Span) :
    comparison.negated = negated ∧
      Ensures (Expr.binary span written left right).compute fun result =>
        ∀ value, result.valueIn registers = some value →
          comparison.asExpression? registers = some (value != 0) := by
  unfold ofBinary? at h
  split at h
  · rename_i condition hcondition
    cases h
    obtain ⟨hdecides, hwritten⟩ := ofOperator?_decides hcondition
    exact ⟨rfl, comparison_value hdecides hwritten negated left right span⟩
  · split at h
    · rename_i bit hbit
      cases h
      exact ⟨rfl, bitSet_value hbit negated left span⟩
    · cases h
      exact ⟨rfl, masked_value negated left right span⟩
  · contradiction

/-- The value of a negated condition tells whether the condition has the value zero. -/
theorem logicalNot_value (span : Span) (operand : Expr) {P : Bool → Prop}
    (h : Ensures operand.compute fun result =>
      ∀ value, result.valueIn registers = some value → P (value != 0)) :
    Ensures (Expr.unary span .logicalNot operand).compute fun result =>
      ∀ value, result.valueIn registers = some value → P (!(value != 0)) := by
  simp only [Expr.compute, Expr.computeIn]
  refine ((Expr.compute_sound operand).and h).bind ?_
  rintro result ⟨hsound, hvalue⟩
  simp only [Computation.unary]
  split
  · exact Ensures.pure fun _ h => by cases h
  · refine (Computation.apply_valueIn registers
      (by simpa using hsound : ∀ operand ∈ [result], operand.Sound) rfl).mono ?_
    intro negation hnegation value hfound
    have heq := (hnegation (Computation.isValid_of_valueIn hfound)).2
    rw [heq] at hfound
    obtain ⟨values, hvalues, hzero⟩ := Option.bind_eq_some_iff.mp hfound
    simp only [List.mapM_cons, List.mapM_nil, Option.bind_eq_bind,
      Option.bind_eq_some_iff] at hvalues
    obtain ⟨inner, hinner, _, hnil, hvalues⟩ := hvalues
    cases hnil
    cases hvalues
    rw [Operator.value?_isZero] at hzero
    cases hzero
    have hnot : (!(Operator.truthValue (inner == 0) != 0)) = (inner != 0) := by
      rw [Operator.truthValue_ne_zero, bne]
    rw [hnot]
    exact hvalue inner hinner

/-- Below negations, a comparison holds if the value of the condition is not zero, each negation
inverting both. -/
theorem ofExpr_value (registers : Register → Int32) (negated : Bool) (expr : Expr) :
    Finds (ofExpr negated expr) fun comparison =>
      Ensures expr.compute fun result =>
        ∀ value, result.valueIn registers = some value →
          comparison.asExpression? registers =
            some ((value != 0) != (comparison.negated != negated)) := by
  fun_induction ofExpr negated expr with
  | case1 => exact finds_none
  | case2 negated span operand ih =>
      refine ih.mono ?_
      intro found hfound comparison hcomparison
      refine (logicalNot_value (P := fun holds => comparison.asExpression? registers =
        some (holds != (comparison.negated != !negated))) span operand
          (hfound comparison hcomparison)).mono ?_
      intro result hresult value hvalue
      rw [hresult value hvalue]
      cases value != 0 <;> cases comparison.negated <;> cases negated <;> rfl
  | case3 negated span written left right comparison h =>
      refine finds_some ?_
      obtain ⟨rfl, hvalue⟩ := ofBinary?_value registers h span
      refine hvalue.mono ?_
      intro result hresult value hvalue
      rw [hresult value hvalue, bne_self_eq_false, Bool.bne_false]
  | case4 => exact OperandProblem.refuse_finds _ _
  | case5 => exact OperandProblem.refuse_finds _ _

/-- What a condition compares does not depend on what was reported before. -/
theorem ofExpr_answer (negated : Bool) (expr : Expr) :
    Ensures (ofExpr negated expr) fun found => found = ((ofExpr negated expr).run []).1 := by
  fun_induction ofExpr negated expr with
  | case1 => exact Ensures.pure rfl
  | case2 negated span operand ih => exact ih
  | case3 => exact Ensures.pure rfl
  | case4 => exact fun _ => rfl
  | case5 => exact fun _ => rfl

/-- The type byte tells the condition and whether it is inverted. -/
theorem ofCode?_negated : ∀ (condition : Condition) (negated : Bool),
    let code := if negated then condition.code ||| Instruction.negatedBit else condition.code
    Condition.ofCode? (code &&& ~~~Instruction.negatedBit) = some condition ∧
      (code &&& Instruction.negatedBit != 0) = negated := by
  intro condition negated
  cases condition <;> cases negated <;> decide

end Comparison

/-- A number operand reads the value of its expression. -/
theorem Expr.toNumber_valueIn (registers : Register → Int32) (expr : Expr) :
    Finds expr.toNumber fun number =>
      (expr.compute []).1.valueIn registers = some (number.valueIn registers) := by
  refine expr.compute_answer.bind ?_
  intro computation hanswer
  split
  · exact finds_none
  · split
    · rename_i number hnumber
      refine finds_some ?_
      rw [← Computation.valueIn_congr hanswer]
      exact Computation.valueIn_of_number? hnumber
    · exact OperandProblem.refuse_finds _ _

/-- The terms of an operand are those of its outcome. -/
theorem Expr.toTerms_eq (expr : Expr) {state : Diagnostics} {terms : List Term}
    (h : (expr.toTerms state).1 = some terms) : (expr.compute state).1.toTerms = terms := by
  change (if (expr.compute state).1.isValid then some (expr.compute state).1.toTerms else none) =
    some terms at h
  split at h
  · exact Option.some.inj h
  · contradiction

namespace Form

/-- A jump on a comparison is taken if that holds of its sides as they are. -/
theorem comparisonOperands_takes? (registers : Register → Int32) (comparison : Comparison)
    (target : Argument) :
    Finds (comparisonOperands comparison target) fun taken =>
      ∀ opcode span, Instruction.takes? registers ⟨opcode, taken.1, taken.2, span⟩ =
        (comparison.asWritten? registers).map (· != comparison.negated) := by
  refine (comparison.left.toNumber_valueIn registers).bind ?_
  intro left hleft
  refine (comparison.right.toNumber_valueIn registers).bind ?_
  intro right hright
  refine Ensures.behind fun place => ?_
  split
  · rename_i left right place
    refine finds_some fun opcode span => ?_
    obtain ⟨hcondition, hnegated⟩ :=
      Comparison.ofCode?_negated comparison.condition comparison.negated
    simp only [Instruction.takes?, Comparison.subtype, hcondition, hnegated, Comparison.asWritten?,
      Condition.meets?,
      Comparison.sides, hleft left rfl, hright right rfl, Option.bind_some, Option.map_some]
  · exact finds_none

/-- A type byte and operands with which a jump is taken if what its condition compares holds
of the sides as they are. -/
def JumpsOn (registers : Register → Int32) (condition : Expr) (taken : UInt8 × List Operand) :
    Prop :=
  ∃ comparison, ((Comparison.ofExpr false condition).run []).1 = some comparison ∧
    ∀ opcode span, Instruction.takes? registers ⟨opcode, taken.1, taken.2, span⟩ =
      (comparison.asWritten? registers).map (· != comparison.negated)

theorem conditionalOperands_jumpsOn (mnemonic : Bytes) (span place : Span) (condition : Expr)
    (target : Argument) :
    Finds (conditionalOperands mnemonic span [.expression place condition, target])
      (JumpsOn registers condition) := by
  refine (Comparison.ofExpr_answer false condition).bind ?_
  intro found hfound
  split
  · rename_i comparison
    refine (comparisonOperands_takes? registers comparison target).mono ?_
    intro result hresult taken htaken
    exact ⟨comparison, hfound.symm, hresult taken htaken⟩
  · exact finds_none

/-- A conditional jump that is written with a condition. -/
theorem instruction?_takes? (registers : Register → Int32) {form : Form}
    (hlayout : form.layout = .conditional)
    (mnemonic : Bytes) (span place : Span) (condition : Expr) (target : Argument) :
    Finds (form.instruction? mnemonic span [.expression place condition, target]) fun jump =>
      ∃ comparison, ((Comparison.ofExpr false condition).run []).1 = some comparison ∧
        jump.takes? registers =
          (comparison.asWritten? registers).map (· != comparison.negated) := by
  have hoperands (flags : List Flag) : Finds (form.operands mnemonic flags span
      (Statement.positionalOf [.expression place condition, target]))
      (JumpsOn registers condition) := by
    simp only [Form.operands, hlayout]
    cases target with
    | flag _ _ => exact OperandProblem.refuse_finds _ _
    | expression _ _ | array _ _ | jumpTable _ _ =>
        exact conditionalOperands_jumpsOn mnemonic span place condition _
  refine (instruction?_finds hoperands).mono ?_
  intro found hfound jump hjump
  obtain ⟨taken, ⟨comparison, hcomparison, htakes⟩, rfl⟩ := hfound jump hjump
  exact ⟨comparison, hcomparison, htakes _ _⟩

end Form

namespace Instruction

theorem map_bne_eq_some {found : Option Bool} {negated taken : Bool} :
    found.map (· != negated) = some taken ↔ found = some (taken != negated) := by
  cases found with
  | none => simp
  | some holds =>
      rw [Option.map_some, Option.some.injEq, Option.some.injEq]
      cases holds <;> cases negated <;> cases taken <;> decide

/-- A conditional jump is taken exactly when the value of its condition is not zero, if and only
if the condition does not compare an integer with a real, or that comparison comes out on the
numbers as they are as it does on reals. -/
theorem takes?_eq_iff (registers : Register → Int32) {form : Form}
    (hlayout : form.layout = .conditional) (mnemonic : Bytes) (span place : Span)
    (condition : Expr) (target : Argument) (before after : Diagnostics) (jump : Instruction)
    (hjump : (form.instruction? mnemonic span [.expression place condition, target] before).1 =
      some jump)
    (terms : List Term) (hterms : (condition.toTerms after).1 = some terms) (value : Int32)
    (hvalue : Term.run? registers [] terms = some [value]) :
    jump.takes? registers = some (value != 0) ↔
      ∀ comparison, ((Comparison.ofExpr false condition).run []).1 = some comparison →
        comparison.IsMixed → comparison.asWritten? registers = comparison.asReals? registers := by
  obtain ⟨found, hfound, htakes⟩ :=
    Form.instruction?_takes? registers hlayout mnemonic span place condition target
      before jump hjump
  have hvalue : (condition.compute after).1.valueIn registers = some value := by
    have htoTerms : (condition.compute after).1.toTerms = terms := condition.toTerms_eq hterms
    rw [Computation.valueIn, htoTerms, hvalue]
    rfl
  have hexpression := Comparison.ofExpr_value registers false condition [] found
    hfound after value hvalue
  rw [Bool.bne_false] at hexpression
  rw [htakes, map_bne_eq_some, ← hexpression]
  have hmixed (h : found.IsMixed) :
      found.asExpression? registers = found.asReals? registers := if_neg h
  constructor
  · intro heq comparison hcomparison h
    cases hfound.symm.trans hcomparison
    exact heq.trans (hmixed h)
  · intro h
    by_cases hkinds : found.IsMixed
    · exact (h found hfound hkinds).trans (hmixed hkinds).symm
    · exact (if_pos (not_not.mp hkinds)).symm

/-- The row of conditional jumps. -/
def jumpForm : Form := ⟨.jumpConditional, "jc", .conditional, 0, [.number, .number, .target]⟩

/-- A jump on `!($v0 & (1 << $v1))` with bit 3 set in the first register and 3 in the second. -/
theorem takes?_eq_iff_bit_clear :
    let condition : Expr :=
      .unary .origin .logicalNot
        (.binary .origin .bitAnd (.register .origin (.value 0) (ascii "$v0"))
          (.binary .origin .shiftLeft (.literal .origin ⟨1, .integer⟩)
            (.register .origin (.value 1) (ascii "$v1"))))
    let target : Argument := .expression .origin (.literal .origin ⟨16, .integer⟩)
    let jump : Instruction :=
      ⟨.jumpConditional, 0x87, [⟨.number (.register (.value 0)), .origin⟩,
        ⟨.number (.register (.value 1)), .origin⟩,
        ⟨.target [⟨.address 16, .origin⟩], .origin⟩], .origin⟩
    let terms : List Term :=
      [.push (.register (.value 0)), .push (.constant 1), .push (.register (.value 1)),
        .apply .shiftLeft, .apply .bitAnd, .apply .isZero]
    let registers : Register → Int32 := fun source => if source.index = 0 then 8 else 3
    jumpForm.layout = .conditional ∧
      (jumpForm.instruction? (ascii "jc") .origin [.expression .origin condition, target] []).1 =
        some jump ∧
      (condition.toTerms []).1 = some terms ∧
      Term.run? registers [] terms = some [0] ∧
      (jump.takes? registers = some ((0 : Int32) != 0) ↔
        ∀ comparison, ((Comparison.ofExpr false condition).run []).1 = some comparison →
          comparison.IsMixed →
            comparison.asWritten? registers = comparison.asReals? registers) := by
  intro condition target jump terms registers
  have hjump : (jumpForm.instruction? (ascii "jc") .origin
      [.expression .origin condition, target] []).1 = some jump := by decide +kernel
  have hterms : (condition.toTerms []).1 = some terms := by decide +kernel
  have hrun : Term.run? registers [] terms = some [0] := by decide +kernel
  exact ⟨rfl, hjump, hterms, hrun, takes?_eq_iff registers rfl (ascii "jc") .origin .origin
    condition target [] [] jump hjump terms hterms 0 hrun⟩

/-- The condition `1 == 1.0` has the value true, and a jump on it is never taken: it compares the
number 1 with the number 1000. -/
theorem not_taken_of_mixed_kinds :
    let condition : Expr :=
      .binary .origin .equal (.literal .origin ⟨1, .integer⟩) (.literal .origin ⟨1000, .real⟩)
    let target : Argument := .expression .origin (.literal .origin ⟨16, .integer⟩)
    ∃ jump ∈ (jumpForm.instruction? (ascii "jc") .origin
        [.expression .origin condition, target] []).1,
      ∃ terms ∈ (condition.toTerms []).1,
        Term.run? (fun _ => 0) [] terms = some [-1] ∧
          jump.takes? (fun _ => 0) = some false := by
  intro condition target
  decide +kernel

end Instruction

end NovelAsm
