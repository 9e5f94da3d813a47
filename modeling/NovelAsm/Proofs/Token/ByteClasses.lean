import NovelAsm.Token.Lexeme

/-!
The classes of bytes as ranges of numbers. What one class says of another is then arithmetic, and
a byte of a class is told from any byte that is not of it (`Byte.ne_of_test`).
-/

namespace NovelAsm

namespace Byte

variable {b c : UInt8}

/-- A byte that passes a test is none that fails it. -/
theorem ne_of_test {test : UInt8 → Bool} (hb : test b = true) (hc : test c = false) : b ≠ c := by
  rintro rfl
  rw [hb] at hc
  cases hc

theorem not_mem_of_test {test : UInt8 → Bool} {bytes : Bytes} (hb : test b = true)
    (hbytes : bytes.all (fun c => !test c) = true) : b ∉ bytes := by
  intro hmem
  have hfails := List.all_eq_true.mp hbytes b hmem
  rw [hb] at hfails
  cases hfails

theorem eq_byte_iff {char : Char} : b = byte char ↔ b.toNat = char.toNat % 256 :=
  UInt8.toNat_inj.symm

/-- The character a byte stands for is that of no other byte. -/
theorem eq_byte_of_ofNat {char : Char} (h : Char.ofNat b.toNat = char) : b = byte char := by
  have hvalid : b.toNat.isValidChar := .inl (Nat.lt_trans b.toNat_lt (by decide))
  have htoNat : char.toNat = b.toNat := by
    rw [← h, Char.ofNat, dif_pos hvalid]
    rfl
  rw [eq_byte_iff, htoNat, Nat.mod_eq_of_lt b.toNat_lt]

theorem isDigit_iff : isDigit b = true ↔ 48 ≤ b.toNat ∧ b.toNat ≤ 57 := by
  simp only [isDigit, Bool.and_eq_true, decide_eq_true_eq, UInt8.le_iff_toNat_le]
  rfl

theorem isUpper_iff : isUpper b = true ↔ 65 ≤ b.toNat ∧ b.toNat ≤ 90 := by
  simp only [isUpper, Bool.and_eq_true, decide_eq_true_eq, UInt8.le_iff_toNat_le]
  rfl

theorem isLower_iff : isLower b = true ↔ 97 ≤ b.toNat ∧ b.toNat ≤ 122 := by
  simp only [isLower, Bool.and_eq_true, decide_eq_true_eq, UInt8.le_iff_toNat_le]
  rfl

theorem isHexDigit_iff : isHexDigit b = true ↔
    isDigit b = true ∨ (97 ≤ b.toNat ∧ b.toNat ≤ 102) ∨ (65 ≤ b.toNat ∧ b.toNat ≤ 70) := by
  simp only [isHexDigit, Bool.or_eq_true, Bool.and_eq_true, decide_eq_true_eq,
    UInt8.le_iff_toNat_le, or_assoc]
  rfl

theorem isNameStart_iff : isNameStart b = true ↔
    (65 ≤ b.toNat ∧ b.toNat ≤ 90) ∨ (97 ≤ b.toNat ∧ b.toNat ≤ 122) ∨ b.toNat = 95 := by
  simp only [isNameStart, Bool.or_eq_true, isUpper_iff, isLower_iff, beq_iff_eq, eq_byte_iff,
    or_assoc]
  rfl

theorem isBlank_iff : isBlank b = true ↔ b.toNat = 32 ∨ (9 ≤ b.toNat ∧ b.toNat ≤ 13) := by
  simp only [isBlank, Bool.or_eq_true, Bool.and_eq_true, decide_eq_true_eq, beq_iff_eq, eq_byte_iff,
    UInt8.le_iff_toNat_le]
  rfl

theorem isBlank_of_isDigit (h : isDigit b = true) : isBlank b = false := by
  rw [← Bool.not_eq_true, isBlank_iff]
  rw [isDigit_iff] at h
  omega

/-- A small letter is the lower case of itself and of the capital that stands 32 places before it.
-/
theorem toLower_eq_iff (h : isLower c = true) : toLower b = c ↔ b = c ∨ b = c - 32 := by
  rw [isLower_iff] at h
  have hcapital : (c - 32).toNat = c.toNat - 32 :=
    UInt8.toNat_sub_of_le c 32 (UInt8.le_iff_toNat_le.mpr (Nat.le_trans (by decide) h.1))
  have hb := b.toNat_lt
  rw [toLower]
  split
  · rename_i hupper
    rw [isUpper_iff] at hupper
    simp only [← UInt8.toNat_inj, UInt8.toNat_add, hcapital, UInt8.reduceToNat]
    omega
  · rename_i hupper
    rw [isUpper_iff] at hupper
    simp only [← UInt8.toNat_inj, hcapital]
    omega

theorem isNamePart_iff : isNamePart b = true ↔ isNameStart b = true ∨ isDigit b = true := by
  rw [isNamePart, Bool.or_eq_true]

/-- No name begins with a digit. -/
theorem isDigit_of_isNameStart (h : isNameStart b = true) : isDigit b = false := by
  rw [← Bool.not_eq_true, isDigit_iff]
  rw [isNameStart_iff] at h
  omega

theorem isNameStart_of_isDigit (h : isDigit b = true) : isNameStart b = false := by
  rw [← Bool.not_eq_true]
  intro hstart
  rw [isDigit_of_isNameStart hstart] at h
  cases h

theorem isNamePart_of_isDigit (h : isDigit b = true) : isNamePart b = true :=
  isNamePart_iff.mpr (.inr h)

theorem isNamePart_of_isHexDigit (h : isHexDigit b = true) : isNamePart b = true := by
  rw [isHexDigit_iff, isDigit_iff] at h
  rw [isNamePart_iff, isNameStart_iff, isDigit_iff]
  omega

end Byte

namespace Lexeme

theorem isNamePart_of_isDigitOrSeparator {b : UInt8} (h : isDigitOrSeparator b = true) :
    Byte.isNamePart b = true := by
  rw [isDigitOrSeparator, Bool.or_eq_true, beq_iff_eq] at h
  rcases h with hdigit | rfl
  · exact Byte.isNamePart_of_isDigit hdigit
  · decide

theorem isNamePart_of_isHexDigitOrSeparator {b : UInt8} (h : isHexDigitOrSeparator b = true) :
    Byte.isNamePart b = true := by
  rw [isHexDigitOrSeparator, Bool.or_eq_true, beq_iff_eq] at h
  rcases h with hdigit | rfl
  · exact Byte.isNamePart_of_isHexDigit hdigit
  · decide

theorem isNameStart_of_isBaseLetter {b : UInt8} (h : isBaseLetter b = true) :
    Byte.isNameStart b = true := by
  rw [isBaseLetter, Byte.toLower] at h
  split at h
  · rename_i hupper
    rw [Byte.isNameStart, hupper, Bool.true_or, Bool.true_or]
  · have hletters : [byte 'x', byte 'b', byte 'o'].all Byte.isNameStart = true := rfl
    exact List.all_eq_true.mp hletters b (List.contains_iff_mem.mp h)

theorem isBaseLetter_of_isDigit {b : UInt8} (h : Byte.isDigit b = true) :
    isBaseLetter b = false := by
  rw [← Bool.not_eq_true]
  intro hletter
  rw [Byte.isDigit_of_isNameStart (isNameStart_of_isBaseLetter hletter)] at h
  cases h

end Lexeme

end NovelAsm
