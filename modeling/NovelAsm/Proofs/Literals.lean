import Mathlib
import NovelAsm.Literal.Integer
import NovelAsm.Literal.Quoted
import NovelAsm.Number

/-!
Printed literals are read back. A numeral of any base stands for its number, whatever its
width is; so an integer in decimal, an address in hexadecimal and the name of a register are
literals for what they were printed from. A text between quotes stands for itself.
-/

namespace NovelAsm

/-- A digit of a base up to sixteen, read back. -/
theorem digitValue?_digitChar : ∀ digit < 16,
    Byte.digitValue? (byte (Nat.digitChar digit)) = some digit := by decide

theorem isHexDigit_digitChar : ∀ digit < 16,
    Byte.isHexDigit (byte (Nat.digitChar digit)) = true := by decide

theorem isDigit_digitChar : ∀ digit < 10, Byte.isDigit (byte (Nat.digitChar digit)) = true := by
  decide

/-- What holds of each digit below a base holds of all digits of a number. -/
theorem forall_toDigits {base : Nat} (test : UInt8 → Prop) (hbase : 1 < base)
    (h : ∀ digit < base, test (byte (Nat.digitChar digit))) (n : Nat) :
    ∀ b ∈ (Nat.toDigits base n).map byte, test b := by
  induction n using Nat.strongRecOn with
  | ind n ih =>
      rw [Nat.toDigits_eq_if hbase]
      split
      · rename_i hlt
        simpa using h n hlt
      · rename_i hle
        have hdiv : n / base < n := Nat.div_lt_self (by omega) hbase
        have hmod : n % base < base := Nat.mod_lt n (by omega)
        intro b hb
        rw [List.map_append, List.mem_append] at hb
        rcases hb with hb | hb
        · exact ih _ hdiv b hb
        · obtain rfl : b = byte (Nat.digitChar (n % base)) := by simpa using hb
          exact h _ hmod

theorem isDigit_of_mem_decimal {n : Nat} : ∀ b ∈ decimal n, Byte.isDigit b = true :=
  forall_toDigits _ (by decide) isDigit_digitChar n

theorem decimal_ne_nil (n : Nat) : decimal n ≠ [] := by simp [decimal]

theorem hex_ne_nil (width n : Nat) : hex width n ≠ [] := by simp [hex]

theorem isHexDigit_of_mem_hex {width n : Nat} : ∀ b ∈ hex width n, Byte.isHexDigit b = true := by
  intro b hb
  simp only [hex, List.mem_append] at hb
  rcases hb with hb | hb
  · rw [List.eq_of_mem_replicate hb]
    decide
  · exact forall_toDigits (fun b => Byte.isHexDigit b = true) (by decide)
      isHexDigit_digitChar n b hb

/-- The number of a numeral behind another one. -/
def digitsValue (base value : Nat) (digits : Bytes) : Nat :=
  digits.foldl (fun value b => value * base + (Byte.digitValue? b).getD 0) value

theorem digitsValue_toDigits {base : Nat} (hbase : 1 < base) (hsixteen : base ≤ 16) (n : Nat) :
    digitsValue base 0 ((Nat.toDigits base n).map byte) = n := by
  induction n using Nat.strongRecOn with
  | ind n ih =>
      rw [Nat.toDigits_eq_if hbase]
      split
      · rename_i hlt
        simp [digitsValue, digitValue?_digitChar n (by omega)]
      · rename_i hle
        have hdigits := ih (n / base) (Nat.div_lt_self (by omega) hbase)
        have hmod : n % base < base := Nat.mod_lt n (by omega)
        have hlast := digitValue?_digitChar (n % base) (by omega)
        simp only [digitsValue] at hdigits
        simp only [digitsValue, List.map_append, List.foldl_append, hdigits, List.map_cons,
          List.map_nil, List.foldl_cons, List.foldl_nil, hlast, Option.getD_some]
        exact Nat.div_add_mod' n base

theorem digitsValue_decimal (n : Nat) : digitsValue 10 0 (decimal n) = n :=
  digitsValue_toDigits (by decide) (by decide) n

theorem digitsValue_hex (width n : Nat) : digitsValue 16 0 (hex width n) = n := by
  have hzeros (count : Nat) : digitsValue 16 0 (List.replicate count (byte '0')) = 0 := by
    induction count with
    | zero => rfl
    | succ count ih => exact ih
  have hdigits := @digitsValue_toDigits 16 (by decide) (by decide) n
  simp only [digitsValue] at hzeros hdigits
  simp only [digitsValue, hex, List.foldl_append, hzeros, hdigits]

/-- Numerals of different numbers differ. -/
theorem hex_inj {width n m : Nat} (h : hex width n = hex width m) : n = m := by
  rw [← digitsValue_hex width n, h, digitsValue_hex]

theorem le_digitsValue {base : Nat} (hbase : 0 < base) (value : Nat) (digits : Bytes) :
    value ≤ digitsValue base value digits := by
  induction digits generalizing value with
  | nil => exact Nat.le_refl _
  | cons b rest ih =>
      refine Nat.le_trans ?_ (ih _)
      exact Nat.le_trans (Nat.le_mul_of_pos_right _ hbase) (Nat.le_add_right _ _)

namespace Literal

/-- Whether a byte is a digit of a base. -/
def isDigitOf (base : Nat) (b : UInt8) : Bool :=
  b != byte '_' && (Byte.digitValue? b).any fun digit => digit < base

theorem exists_digit {base : Nat} {b : UInt8} (h : isDigitOf base b = true) :
    b ≠ byte '_' ∧ ∃ digit < base, Byte.digitValue? b = some digit := by
  simp only [isDigitOf, Bool.and_eq_true, bne_iff_ne, Option.any_eq_true_iff_get,
    decide_eq_true_eq] at h
  obtain ⟨hseparator, hsome, hdigit⟩ := h
  exact ⟨hseparator, _, hdigit, (Option.some_get hsome).symm⟩

theorem isDigitOf_decimal : ∀ b, Byte.isDigit b = true →
    isDigitOf 10 b = true ∧ baseOfLetter? b = none := by
  decide +kernel

theorem isDigitOf_hex : ∀ b, Byte.isHexDigit b = true → isDigitOf 16 b = true := by
  decide +kernel

/-- Digits whose number is within the limit are read to their end. -/
theorem readDigits?_eq {base value : Nat} (hbase : 0 < base) {digits : Bytes}
    (hdigits : ∀ b ∈ digits, isDigitOf base b = true)
    (hlimit : digitsValue base value digits ≤ integerLimit) {seen : Bool}
    (hseen : digits = [] → seen = true) :
    readDigits? base value seen digits = some (digitsValue base value digits) := by
  induction digits generalizing value seen with
  | nil => rw [readDigits?, if_pos (hseen rfl)]; rfl
  | cons b rest ih =>
      obtain ⟨hseparator, digit, hdigit, hvalue⟩ := exists_digit (hdigits b (List.mem_cons_self ..))
      have hnext : digitsValue base value (b :: rest) =
          digitsValue base (value * base + digit) rest := by
        simp [digitsValue, hvalue]
      rw [hnext] at hlimit ⊢
      have hle := le_digitsValue hbase (value * base + digit) rest
      rw [readDigits?, if_neg (by simpa using hseparator), hvalue]
      simp only
      rw [if_neg (by simp; omega)]
      exact ih (fun c hc => hdigits c (List.mem_cons_of_mem _ hc)) hlimit fun _ => rfl

/-- An integer in decimal is a literal of its number. -/
theorem integer?_decimal {n : Nat} (h : n ≤ integerLimit) : integer? (decimal n) = some n := by
  have hdigit := @isDigit_of_mem_decimal n
  have hsplit : splitBase (decimal n) = (10, decimal n) := by
    match hdecimal : decimal n with
    | [] | [_] | [_, _] => rfl
    | zero :: letter :: digit :: rest =>
        have hletter : baseOfLetter? letter = none :=
          (isDigitOf_decimal letter (hdigit letter (by rw [hdecimal]; simp))).2
        simp [splitBase, hletter]
  rw [integer?, hsplit]
  simp only
  rw [readDigits?_eq (by decide) (fun b hb => (isDigitOf_decimal b (hdigit b hb)).1)
    (by rwa [digitsValue_decimal]) (fun hnil => absurd hnil (decimal_ne_nil n)),
    digitsValue_decimal]

/-- A number in hexadecimal is a literal of its number. -/
theorem integer?_hex (width : Nat) {n : Nat} (h : n ≤ integerLimit) :
    integer? (ascii "0x" ++ hex width n) = some n := by
  have hsplit : splitBase (ascii "0x" ++ hex width n) = (16, hex width n) := by
    cases hhex : hex width n with
    | nil => exact absurd hhex (hex_ne_nil width n)
    | cons digit rest => rfl
  rw [integer?, hsplit]
  simp only
  rw [readDigits?_eq (by decide) (fun b hb => isDigitOf_hex b (isHexDigit_of_mem_hex b hb))
    (by rwa [digitsValue_hex]) (fun hnil => absurd hnil (hex_ne_nil width n)), digitsValue_hex]

/-- A text as it stands between quotes. -/
def escaped (text : Bytes) : Bytes :=
  text.flatMap fun b => if needsEscape b then [escapeMark, b] else [b]

theorem escaped_cons (b : UInt8) (text : Bytes) :
    escaped (b :: text) = (if needsEscape b then [escapeMark, b] else [b]) ++ escaped text :=
  List.flatMap_cons

theorem quote_eq (text : Bytes) : quote text = quoteMark :: (escaped text ++ [quoteMark]) := rfl

/-- A text between quotes stands for itself. -/
theorem string?_quote (text : Bytes) : string? (quote text) = some text := by
  have hescaped : unescape? (escaped text) = some text := by
    induction text with
    | nil => rfl
    | cons b rest ih =>
        rw [escaped_cons]
        by_cases hb : needsEscape b = true
        · rw [if_pos hb]
          simp [unescape?, hb, ih]
        · have hplain : b ≠ escapeMark := by
            rintro rfl
            exact hb rfl
          rw [if_neg hb, List.singleton_append, unescape?.eq_def]
          simp [hplain, ih]
  rw [quote_eq, string?, if_pos (by simp), List.dropLast_concat, hescaped]

end Literal

namespace Register

theorem foldl_digits {digits : Bytes} (h : ∀ b ∈ digits, Byte.isDigit b = true) (value : Nat) :
    digits.foldl (fun n d => n * 10 + (d - byte '0').toNat) value =
      digitsValue 10 value digits := by
  induction digits generalizing value with
  | nil => rfl
  | cons b rest ih =>
      have hvalue : Byte.digitValue? b = some (b - byte '0').toNat := by
        rw [Byte.digitValue?, if_pos (h b (List.mem_cons_self ..))]
      rw [List.foldl_cons, ih fun c hc => h c (List.mem_cons_of_mem _ hc)]
      simp [digitsValue, hvalue]

/-- The number of a register is read back from its digits. -/
theorem parseIndex?_decimal {n : Nat} (h : n < limit) : parseIndex? (decimal n) = some n := by
  have hlength : (decimal n).length ≤ 4 := by
    rw [decimal, List.length_map, Nat.length_toDigits_le_iff (by decide) (by decide)]
    exact Nat.lt_of_lt_of_le h (by decide)
  have hdigits := @isDigit_of_mem_decimal n
  have hvalid : ((decimal n).isEmpty || decide (5 < (decimal n).length) ||
      !(decimal n).all Byte.isDigit) = false := by
    have hall : (decimal n).all Byte.isDigit = true := List.all_eq_true.mpr hdigits
    simp [hall, decimal_ne_nil]
    omega
  rw [parseIndex?, if_neg (by simpa using hvalid), foldl_digits hdigits, digitsValue_decimal]

/-- The name of a register stands for it. -/
theorem parse?_name (source : Register) : parse? source.name = some source := by
  cases source with
  | value index =>
      have hindex : parseIndex? (decimal index.val) = some index.val :=
        parseIndex?_decimal index.isLt
      have hbound : index.val < 4096 := index.isLt
      change (parseIndex? (decimal index.val)).bind _ = _
      rw [hindex]
      exact dif_pos hbound
  | argument index =>
      have hindex : parseIndex? (decimal index.val) = some index.val :=
        parseIndex?_decimal index.isLt
      have hbound : index.val < 4096 := index.isLt
      change (parseIndex? (decimal index.val)).bind _ = _
      rw [hindex]
      exact dif_pos hbound

end Register

end NovelAsm
