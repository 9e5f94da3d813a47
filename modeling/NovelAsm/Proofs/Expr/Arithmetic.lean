import Mathlib
import NovelAsm.Expr.Computation

/-!
The arithmetic of folding. Constants are folded in words of 64 bits, which wrap; `exactValue?` says
what an operator is to come to, in integers without bound. Where nothing is wrong with the constants
that an operator takes, no result on the way to its value is too long for a word, so the words that
are computed are the exact values (`exists_value`), and folding is as if it were done in integers
(`fold?_eq`).
-/

namespace NovelAsm

namespace Operator

/-- The machine's truth values as integers. -/
def truth (condition : Bool) : Int := if condition then -1 else 0

/-- The exact value of an operator. Nothing for trigonometry, which only the machine computes, and
for a list of operands that does not fit. Division is toward zero, and a right shift keeps the
sign. -/
def exactValue? : Operator → List Int32 → Option Int
  | .add, [a, b] => some (a.toInt + b.toInt)
  | .subtract, [a, b] => some (a.toInt - b.toInt)
  | .multiply, [a, b] => some (a.toInt * b.toInt)
  | .divide, [a, b] => some (a.toInt.tdiv b.toInt)
  | .modulo, [a, b] => some (a.toInt.tmod b.toInt)
  | .multiplyReal, [a, b] => some ((a.toInt * b.toInt).tdiv scale)
  | .divideReal, [a, b] => some ((a.toInt * scale).tdiv b.toInt)
  | .shiftLeft, [a, b] => some (a.toInt * Nat.pow 2 b.toInt.toNat)
  | .shiftRight, [a, b] => some (a.toInt / Nat.pow 2 b.toInt.toNat)
  | .bitAnd, [a, b] => some (a &&& b).toInt
  | .bitOr, [a, b] => some (a ||| b).toInt
  | .bitXor, [a, b] => some (a ^^^ b).toInt
  | .negate, [a] => some (-a.toInt)
  | .bitNot, [a] => some (~~~a).toInt
  | .abs, [a] => some a.toInt.natAbs
  | .equal, [a, b] => some (truth (a.toInt == b.toInt))
  | .notEqual, [a, b] => some (truth (a.toInt != b.toInt))
  | .greaterEqual, [a, b] => some (truth (b.toInt ≤ a.toInt))
  | .greater, [a, b] => some (truth (b.toInt < a.toInt))
  | .lessEqual, [a, b] => some (truth (a.toInt ≤ b.toInt))
  | .less, [a, b] => some (truth (a.toInt < b.toInt))
  | .isZero, [a] => some (truth (a.toInt == 0))
  | .isNonzero, [a] => some (truth (a.toInt != 0))
  | .logicalAnd, [a, b] => some (truth (a.toInt != 0 && b.toInt != 0))
  | .logicalOr, [a, b] => some (truth (a.toInt != 0 || b.toInt != 0))
  | .min, [a, b] => some (if a.toInt < b.toInt then a.toInt else b.toInt)
  | .max, [a, b] => some (if b.toInt < a.toInt then a.toInt else b.toInt)
  | .select, [whenFalse, whenTrue, condition] =>
      some (if condition.toInt != 0 then whenTrue.toInt else whenFalse.toInt)
  | _, _ => none

/-- What only the machine computes. -/
def isTrigonometric : Operator → Bool
  | .sin | .cos | .tan => true
  | _ => false

/-- A result as a signed word of 64 bits, if it is one. -/
def word? (value : Int) : Option Int :=
  if -0x8000000000000000 ≤ value && value ≤ 0x7fffffffffffffff then some value else none

/-- The value of an operator where each result on the way is a word of 64 bits: there is none behind
an overflow, a divisor that is zero, or a shift by more bits than are shifted. A right shift is one
of the 32 bits of a constant. -/
def wordValue? : Operator → List Int32 → Option Int
  | .divide, [a, b] => if b = 0 then none else word? (a.toInt.tdiv b.toInt)
  | .modulo, [a, b] => if b = 0 then none else word? (a.toInt.tmod b.toInt)
  | .multiplyReal, [a, b] =>
      (word? (a.toInt * b.toInt)).bind fun product => word? (product.tdiv scale)
  | .divideReal, [a, b] =>
      (word? (a.toInt * scale)).bind fun scaled =>
        if b = 0 then none else word? (scaled.tdiv b.toInt)
  | .shiftLeft, [a, b] =>
      if b.toInt < 0 || 64 ≤ b.toInt then none
      else (word? (Nat.pow 2 b.toInt.toNat)).bind fun factor => word? (a.toInt * factor)
  | .shiftRight, [a, b] =>
      if b.toInt < 0 || 32 ≤ b.toInt then none
      else word? (a.toInt / Nat.pow 2 b.toInt.toNat)
  | .abs, [a] => if a.toInt < 0 then word? (-a.toInt) else word? a.toInt
  | operator, values => (operator.exactValue? values).bind word?

theorem word?_of_bounds {value : Int} (hlow : -0x8000000000000000 ≤ value)
    (hhigh : value ≤ 0x7fffffffffffffff) : word? value = some value := by
  rw [word?, if_pos (by simp [hlow, hhigh])]

theorem bounds_toInt (a : Int32) : -0x80000000 ≤ a.toInt ∧ a.toInt ≤ 0x7fffffff := by
  have hlow := a.le_toInt
  have hhigh := a.toInt_lt
  omega

theorem word?_toInt (a : Int32) : word? a.toInt = some a.toInt := by
  have ha := bounds_toInt a
  exact word?_of_bounds (by omega) (by omega)

/-- A product of two integers of at most 32 bits, of which the second may be one more. -/
theorem bounds_product {a b : Int} (ha : -0x80000000 ≤ a ∧ a ≤ 0x7fffffff)
    (hb : -0x80000000 ≤ b ∧ b ≤ 0x80000000) :
    -0x4000000000000000 ≤ a * b ∧ a * b ≤ 0x4000000000000000 := by
  have hproduct : |a * b| ≤ 0x80000000 * 0x80000000 := by
    rw [abs_mul]
    exact mul_le_mul (abs_le.mpr (by omega)) (abs_le.mpr hb) (abs_nonneg b) (by omega)
  obtain ⟨hlow, hhigh⟩ := abs_le.mp hproduct
  omega

theorem word?_product {a b : Int} (ha : -0x80000000 ≤ a ∧ a ≤ 0x7fffffff)
    (hb : -0x80000000 ≤ b ∧ b ≤ 0x80000000) : word? (a * b) = some (a * b) := by
  have hproduct := bounds_product ha hb
  exact word?_of_bounds (by omega) (by omega)

/-- What is no longer than a product is a word. -/
theorem word?_of_natAbs_le {value whole : Int} (h : value.natAbs ≤ whole.natAbs)
    (hwhole : -0x4000000000000000 ≤ whole ∧ whole ≤ 0x4000000000000000) :
    word? value = some value :=
  word?_of_bounds (by omega) (by omega)

theorem word?_truth (condition : Bool) : word? (truth condition) = some (truth condition) := by
  cases condition <;> decide

theorem word?_choice {condition : Prop} [Decidable condition] (a b : Int32) :
    word? (if condition then a.toInt else b.toInt) =
      some (if condition then a.toInt else b.toInt) := by
  split <;> exact word?_toInt _

/-- The factor of a shift. -/
theorem bounds_factor {count : Int} (h : count ≤ 31) :
    (Nat.pow 2 count.toNat : Int) ≤ 0x80000000 ∧ (0 : Int) < Nat.pow 2 count.toNat := by
  have hfactor : 2 ^ count.toNat ≤ 2 ^ 31 := Nat.pow_le_pow_right (by decide) (by omega)
  have hpos : 0 < 2 ^ count.toNat := Nat.pow_pos (by decide)
  simp only [Nat.pow_eq]
  omega

theorem wordValue?_abs (a : Int32) : wordValue? .abs [a] = some (a.toInt.natAbs : Int) := by
  have ha := bounds_toInt a
  change (if a.toInt < 0 then word? (-a.toInt) else word? a.toInt) = _
  split
  · rw [Int.ofNat_natAbs_of_nonpos (by omega)]
    exact word?_of_bounds (by omega) (by omega)
  · rw [Int.natAbs_of_nonneg (by omega)]
    exact word?_toInt a

section Fault

variable {problem : FoldProblem} {a b : Int32}

theorem ne_zero_of_fault (h : (if b.toInt == 0 then some problem else none) = none) : b ≠ 0 := by
  rintro rfl
  cases h

theorem count_of_fault (h : (if b.toInt < 0 || 31 < b.toInt then some problem else none) = none) :
    0 ≤ b.toInt ∧ b.toInt ≤ 31 := by
  simpa using h

theorem wordValue?_divide (hb : b ≠ 0) :
    wordValue? .divide [a, b] = some (a.toInt.tdiv b.toInt) := by
  have ha := bounds_toInt a
  change (if b = 0 then none else word? (a.toInt.tdiv b.toInt)) = _
  rw [if_neg hb]
  exact word?_of_natAbs_le (Int.natAbs_tdiv_le_natAbs _ _) (by omega)

theorem wordValue?_modulo (hb : b ≠ 0) :
    wordValue? .modulo [a, b] = some (a.toInt.tmod b.toInt) := by
  have ha := bounds_toInt a
  change (if b = 0 then none else word? (a.toInt.tmod b.toInt)) = _
  rw [if_neg hb]
  refine word?_of_natAbs_le ?_ (show -0x4000000000000000 ≤ a.toInt ∧ _ by omega)
  rw [Int.natAbs_tmod]
  exact Nat.mod_le _ _

theorem wordValue?_multiplyReal (a b : Int32) :
    wordValue? .multiplyReal [a, b] = some ((a.toInt * b.toInt).tdiv scale) := by
  have hb := bounds_toInt b
  have hproduct := bounds_product (bounds_toInt a) (b := b.toInt) (by omega)
  change ((word? (a.toInt * b.toInt)).bind fun product => word? (product.tdiv scale)) = _
  rw [word?_product (bounds_toInt a) (by omega)]
  exact word?_of_natAbs_le (Int.natAbs_tdiv_le_natAbs _ _) hproduct

theorem wordValue?_divideReal (hb : b ≠ 0) :
    wordValue? .divideReal [a, b] = some ((a.toInt * scale).tdiv b.toInt) := by
  have hscale : -0x80000000 ≤ scale ∧ scale ≤ 0x80000000 := by decide
  have hproduct := bounds_product (bounds_toInt a) hscale
  change ((word? (a.toInt * scale)).bind fun scaled =>
    if b = 0 then none else word? (scaled.tdiv b.toInt)) = _
  rw [word?_product (bounds_toInt a) hscale, Option.bind_some, if_neg hb]
  exact word?_of_natAbs_le (Int.natAbs_tdiv_le_natAbs _ _) hproduct

theorem wordValue?_shiftLeft (hcount : 0 ≤ b.toInt ∧ b.toInt ≤ 31) :
    wordValue? .shiftLeft [a, b] = some (a.toInt * Nat.pow 2 b.toInt.toNat) := by
  have hfactor := bounds_factor hcount.2
  change (if b.toInt < 0 || 64 ≤ b.toInt then none
    else (word? (Nat.pow 2 b.toInt.toNat)).bind fun factor => word? (a.toInt * factor)) = _
  rw [if_neg (by simp; omega), word?_of_bounds (by omega) (by omega)]
  exact word?_product (bounds_toInt a) (by omega)

theorem wordValue?_shiftRight (hcount : 0 ≤ b.toInt ∧ b.toInt ≤ 31) :
    wordValue? .shiftRight [a, b] = some (a.toInt / Nat.pow 2 b.toInt.toNat) := by
  have ha := bounds_toInt a
  change (if b.toInt < 0 || 32 ≤ b.toInt then none
    else word? (a.toInt / Nat.pow 2 b.toInt.toNat)) = _
  rw [if_neg (by simp; omega)]
  exact word?_of_natAbs_le (Int.natAbs_ediv_le_natAbs _ _) (by omega)

end Fault

/-!
The words that are computed, as integers.
-/

/-- A word that is computed modulo its size is what it is computed from, if that is a word. -/
theorem bmod_eq_of_word? {value : Int} (h : word? value = some value) :
    value.bmod (2 ^ 64) = value := by
  simp only [word?, Bool.and_eq_true, decide_eq_true_eq, Option.ite_none_right_eq_some] at h
  exact Int.bmod_eq_of_le (by omega) (by omega)

@[simp] theorem toInt_truthWord (condition : Bool) :
    (truthWord condition).toInt = truth condition := by
  cases condition <;> decide

@[simp] theorem toInt64_beq (a b : Int32) : (a.toInt64 == b.toInt64) = (a.toInt == b.toInt) := by
  rw [Bool.eq_iff_iff, beq_iff_eq, beq_iff_eq, ← Int64.toInt_inj, Int32.toInt_toInt64,
    Int32.toInt_toInt64]

@[simp] theorem toInt64_beq_zero (a : Int32) : (a.toInt64 == 0) = (a.toInt == 0) :=
  toInt64_beq a 0

@[simp] theorem toInt64_lt (a b : Int32) : a.toInt64 < b.toInt64 ↔ a.toInt < b.toInt := by
  rw [Int64.lt_iff_toInt_lt, Int32.toInt_toInt64, Int32.toInt_toInt64]

@[simp] theorem toInt64_le (a b : Int32) : a.toInt64 ≤ b.toInt64 ↔ a.toInt ≤ b.toInt := by
  rw [Int64.le_iff_toInt_le, Int32.toInt_toInt64, Int32.toInt_toInt64]

theorem beq_zero (a : Int32) : (a == 0) = (a.toInt == 0) := by
  rw [Bool.eq_iff_iff, beq_iff_eq, beq_iff_eq, ← Int32.toInt_inj]
  rfl

theorem toInt_toInt64_choice {condition : Prop} [Decidable condition] (a b : Int32) :
    (if condition then a.toInt64 else b.toInt64).toInt =
      if condition then a.toInt else b.toInt := by
  split <;> exact Int32.toInt_toInt64 _

theorem toInt64_not (a : Int32) : (~~~a).toInt64 = ~~~a.toInt64 := by
  rw [← Int64.toBitVec_inj]
  exact BitVec.signExtend_not (by decide)

theorem toInt_abs (a : Int32) :
    (if a.toInt64 < 0 then -a.toInt64 else a.toInt64).toInt = a.toInt.natAbs := by
  have ha := bounds_toInt a
  have hsign : a.toInt64 < 0 ↔ a.toInt < 0 := toInt64_lt a 0
  split
  · rename_i hnegative
    rw [Int64.toInt_neg, Int32.toInt_toInt64,
      bmod_eq_of_word? (word?_of_bounds (by omega) (by omega))]
    have := hsign.mp hnegative
    omega
  · rename_i hnegative
    rw [Int32.toInt_toInt64]
    have := mt hsign.mpr hnegative
    omega

theorem toInt_multiply {a b : Int32} (h : word? (a.toInt * b.toInt) = some (a.toInt * b.toInt)) :
    (a.toInt64 * b.toInt64).toInt = a.toInt * b.toInt := by
  rw [Int64.toInt_mul, Int32.toInt_toInt64, Int32.toInt_toInt64, bmod_eq_of_word? h]

/-- A quotient is no longer than its dividend, so a word if that is at most half of one. -/
theorem toInt_quotient {a b : Int64} {whole : Int} (ha : a.toInt = whole)
    (hwhole : -0x4000000000000000 ≤ whole ∧ whole ≤ 0x4000000000000000) :
    (a / b).toInt = whole.tdiv b.toInt := by
  rw [Int64.toInt_div, ha]
  exact bmod_eq_of_word? (word?_of_natAbs_le (Int.natAbs_tdiv_le_natAbs _ _) hwhole)

/-- The count of a shift is one of 32. -/
theorem exists_count {count : Int32} (h : 0 ≤ count.toInt ∧ count.toInt ≤ 31) :
    ∃ n : Fin 32, count = Int32.ofNat n ∧ count.toInt.toNat = n := by
  refine ⟨⟨count.toInt.toNat, by omega⟩, ?_, rfl⟩
  rw [← Int32.toInt_inj]
  exact (Int.toNat_of_nonneg h.1).symm.trans
    (Int32.toInt_ofNat_of_lt (by omega)).symm

theorem toInt_factor : ∀ n : Fin 32,
    ((1 : Int64) <<< (Int32.ofNat n).toInt64).toInt = (Nat.pow 2 n : Nat) := by decide

theorem toBitVec_count : ∀ n : Fin 32,
    (Int32.ofNat n).toBitVec.smod 32 = BitVec.ofNat 32 n := by decide

theorem toInt_shiftLeft {a count : Int32} (h : 0 ≤ count.toInt ∧ count.toInt ≤ 31) :
    (a.toInt64 * (1 <<< count.toInt64)).toInt = a.toInt * Nat.pow 2 count.toInt.toNat := by
  have hfactor := bounds_factor h.2
  obtain ⟨n, rfl, hn⟩ := exists_count h
  rw [hn] at hfactor ⊢
  rw [Int64.toInt_mul, Int32.toInt_toInt64, toInt_factor]
  exact bmod_eq_of_word? (word?_product (bounds_toInt a) (by omega))

theorem toInt_shiftRight {a count : Int32} (h : 0 ≤ count.toInt ∧ count.toInt ≤ 31) :
    (a >>> count).toInt64.toInt = a.toInt / Nat.pow 2 count.toInt.toNat := by
  obtain ⟨n, rfl, hn⟩ := exists_count h
  have hcount : (BitVec.ofNat 32 n).toNat = n := by
    rw [BitVec.toNat_ofNat]
    omega
  rw [hn, Int32.toInt_toInt64, ← Int32.toInt_toBitVec, Int32.toBitVec_shiftRight,
    toBitVec_count, BitVec.sshiftRight', BitVec.toInt_sshiftRight, hcount,
    Int32.toInt_toBitVec, Int.shiftRight_eq_div_pow]
  rfl

/-- Where nothing is wrong with the constants that an operator takes, it has an exact value, no
result on the way to that is too long for a word, and it is what is computed. -/
theorem exists_value {operator : Operator} {values : List Int32}
    (hlength : values.length = operator.arity) (hfolded : operator.isTrigonometric = false)
    (hfault : operator.fault? values = none) :
    ∃ value wide, operator.exactValue? values = some value ∧
      operator.wordValue? values = some value ∧ operator.wide? values = some wide ∧
      wide.toInt = value := by
  cases operator with
  | sin | cos | tan => cases hfolded
  | negate =>
      obtain ⟨a, rfl⟩ := List.length_eq_one_iff.mp hlength
      have ha := bounds_toInt a
      have hword : word? (-a.toInt) = some (-a.toInt) := word?_of_bounds (by omega) (by omega)
      refine ⟨_, _, rfl, hword, rfl, ?_⟩
      rw [Int64.toInt_neg, Int32.toInt_toInt64, bmod_eq_of_word? hword]
  | bitNot =>
      obtain ⟨a, rfl⟩ := List.length_eq_one_iff.mp hlength
      exact ⟨_, _, rfl, word?_toInt _, rfl, by rw [← toInt64_not, Int32.toInt_toInt64]⟩
  | isZero | isNonzero =>
      obtain ⟨a, rfl⟩ := List.length_eq_one_iff.mp hlength
      exact ⟨_, _, rfl, word?_truth _, rfl, by simp only [toInt_truthWord, toInt64_beq_zero, bne]⟩
  | abs =>
      obtain ⟨a, rfl⟩ := List.length_eq_one_iff.mp hlength
      exact ⟨_, _, rfl, wordValue?_abs a, rfl, toInt_abs a⟩
  | add | subtract =>
      obtain ⟨a, b, rfl⟩ := List.length_eq_two.mp hlength
      have ha := bounds_toInt a
      have hb := bounds_toInt b
      refine ⟨_, _, rfl, word?_of_bounds (by omega) (by omega), rfl, ?_⟩
      simp only [Int64.toInt_add, Int64.toInt_sub, Int32.toInt_toInt64]
      exact bmod_eq_of_word? (word?_of_bounds (by omega) (by omega))
  | multiply =>
      obtain ⟨a, b, rfl⟩ := List.length_eq_two.mp hlength
      have hb := bounds_toInt b
      have hword := word?_product (bounds_toInt a) (b := b.toInt) (by omega)
      exact ⟨_, _, rfl, hword, rfl, toInt_multiply hword⟩
  | divide =>
      obtain ⟨a, b, rfl⟩ := List.length_eq_two.mp hlength
      have ha := bounds_toInt a
      refine ⟨_, _, rfl, wordValue?_divide (ne_zero_of_fault hfault), rfl, ?_⟩
      rw [toInt_quotient (Int32.toInt_toInt64 a) (by omega), Int32.toInt_toInt64]
  | modulo =>
      obtain ⟨a, b, rfl⟩ := List.length_eq_two.mp hlength
      refine ⟨_, _, rfl, wordValue?_modulo (ne_zero_of_fault hfault), rfl, ?_⟩
      rw [Int64.toInt_mod, Int32.toInt_toInt64, Int32.toInt_toInt64]
  | multiplyReal =>
      obtain ⟨a, b, rfl⟩ := List.length_eq_two.mp hlength
      have hb := bounds_toInt b
      have hproduct := bounds_product (bounds_toInt a) (b := b.toInt) (by omega)
      have hwords := toInt_multiply (word?_product (bounds_toInt a) (b := b.toInt) (by omega))
      exact ⟨_, _, rfl, wordValue?_multiplyReal a b, rfl, toInt_quotient hwords hproduct⟩
  | divideReal =>
      obtain ⟨a, b, rfl⟩ := List.length_eq_two.mp hlength
      have hproduct := bounds_product (bounds_toInt a) (b := scale) (by decide)
      have hwords := toInt_multiply (b := Int32.ofInt scale)
        (word?_product (bounds_toInt a) (by decide))
      refine ⟨_, _, rfl, wordValue?_divideReal (ne_zero_of_fault hfault), rfl, ?_⟩
      exact (toInt_quotient hwords hproduct).trans (by rw [Int32.toInt_toInt64]; rfl)
  | shiftLeft =>
      obtain ⟨a, b, rfl⟩ := List.length_eq_two.mp hlength
      have hcount := count_of_fault hfault
      exact ⟨_, _, rfl, wordValue?_shiftLeft hcount, rfl, toInt_shiftLeft hcount⟩
  | shiftRight =>
      obtain ⟨a, b, rfl⟩ := List.length_eq_two.mp hlength
      have hcount := count_of_fault hfault
      exact ⟨_, _, rfl, wordValue?_shiftRight hcount, rfl, toInt_shiftRight hcount⟩
  | bitAnd | bitOr | bitXor =>
      obtain ⟨a, b, rfl⟩ := List.length_eq_two.mp hlength
      refine ⟨_, _, rfl, word?_toInt _, rfl, ?_⟩
      simp only [← Int32.toInt64_and, ← Int32.toInt64_or, ← Int32.toInt64_xor, Int32.toInt_toInt64]
  | equal | notEqual | greaterEqual | greater | lessEqual | less | logicalAnd | logicalOr =>
      obtain ⟨a, b, rfl⟩ := List.length_eq_two.mp hlength
      refine ⟨_, _, rfl, word?_truth _, rfl, ?_⟩
      simp only [toInt_truthWord, toInt64_beq, toInt64_beq_zero, toInt64_lt, toInt64_le, bne]
  | min | max =>
      obtain ⟨a, b, rfl⟩ := List.length_eq_two.mp hlength
      refine ⟨_, _, rfl, word?_choice _ _, rfl, ?_⟩
      simp only [toInt_toInt64_choice, toInt64_lt]
  | select =>
      obtain ⟨a, b, c, rfl⟩ := List.length_eq_three.mp hlength
      refine ⟨_, _, rfl, word?_choice _ _, rfl, ?_⟩
      simp only [toInt_toInt64_choice, beq_zero, bne]

/-- An operator has neither value for another number of constants than it takes, nor if only the
machine computes it. -/
theorem no_value {operator : Operator} {values : List Int32}
    (h : values.length ≠ operator.arity ∨ operator.isTrigonometric = true) :
    operator.exactValue? values = none ∧ operator.wide? values = none := by
  rcases values with _ | ⟨a, _ | ⟨b, _ | ⟨c, _ | ⟨d, rest⟩⟩⟩⟩ <;> cases operator <;>
    first
      | exact ⟨rfl, rfl⟩
      | simp [arity, isTrigonometric] at h

/-- Folding gives the exact value, or refuses what does not fit. -/
theorem fold?_eq (operator : Operator) (values : List Int32) :
    operator.fold? values =
      match operator.fault? values with
      | some problem => some (.error problem)
      | none =>
          (operator.exactValue? values).map fun value =>
            match fit? value with
            | some number => .ok number
            | none => .error .overflow := by
  rw [fold?]
  cases hfault : operator.fault? values with
  | some problem => rfl
  | none =>
      by_cases h : values.length = operator.arity ∧ operator.isTrigonometric = false
      · obtain ⟨value, wide, hvalue, -, hwide, rfl⟩ := exists_value h.1 h.2 hfault
        cases hfit : fit? wide.toInt <;> simp only [hvalue, hwide, hfit, Option.map_some]
      · obtain ⟨hvalue, hwide⟩ := @no_value operator values
          (by rw [not_and_or, Bool.not_eq_false] at h; exact h)
        simp only [hvalue, hwide, Option.map_none]

end Operator

end NovelAsm
