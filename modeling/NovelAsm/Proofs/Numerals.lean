import NovelAsm.Literal.Address
import NovelAsm.Proofs.Expr.Folding
import NovelAsm.Proofs.Literals
import NovelAsm.Proofs.Token.ByteClasses

/-!
What the two readers of numerals accept, and what they make of it. A numeral of a base is a text of
its digits, in either case, and stands for the positional value of these (`Numeral`). An integer
literal may announce its base, has underscores among its digits and a value of 32 bits
(`Literal.integer?_exact`); a reader that forms each product and each sum in a word of 64 bits never
leaves these. An address is a numeral behind blanks and a sign (`Literal.address?_exact`): the minus
sign is refused at the front of a text alone, so behind a blank it takes the numeral to the other
end of 64 bits.
-/

namespace NovelAsm

/-- A byte is a digit, in either case. -/
def StandsFor (b : UInt8) (digit : Nat) : Prop :=
  digit < 16 ∧ (b = byte digit.digitChar ∨ b = byte digit.digitChar.toUpper)

/-- A text of digits of a base, at least one of them, and its positional value. -/
def Numeral (base : Nat) (text : Bytes) (value : Nat) : Prop :=
  ∃ digits : List Nat, digits ≠ [] ∧ List.Forall₂ StandsFor text digits ∧
    (∀ digit ∈ digits, digit < base) ∧ Nat.ofDigits base digits.reverse = value

theorem digitValue?_toUpper : ∀ digit < 16,
    Byte.digitValue? (byte (Nat.digitChar digit).toUpper) = some digit := by decide

/-- A byte that has a value is one of the two spellings of that. -/
theorem all_digitValue? : ∀ b, (Byte.digitValue? b).all (fun digit => digit < 16 &&
    (b == byte (Nat.digitChar digit) || b == byte (Nat.digitChar digit).toUpper)) = true := by
  decide +kernel

theorem StandsFor.iff_digitValue? {b : UInt8} {digit : Nat} :
    StandsFor b digit ↔ Byte.digitValue? b = some digit := by
  constructor
  · rintro ⟨hlt, rfl | rfl⟩
    · exact digitValue?_digitChar digit hlt
    · exact digitValue?_toUpper digit hlt
  · intro hvalue
    simpa [StandsFor, hvalue] using all_digitValue? b

theorem digitsValue_cons {base value digit : Nat} {b : UInt8} (h : Byte.digitValue? b = some digit)
    (rest : Bytes) : digitsValue base value (b :: rest) =
      digitsValue base (value * base + digit) rest := by
  simp [digitsValue, h]

/-- The value that a fold over the digits finds is the positional one. -/
theorem digitsValue_eq_ofDigits {base : Nat} {text : Bytes} {digits : List Nat}
    (h : List.Forall₂ StandsFor text digits) (value : Nat) :
    digitsValue base value text =
      value * base ^ digits.length + Nat.ofDigits base digits.reverse := by
  induction h generalizing value with
  | nil => simp [digitsValue]
  | @cons b digit rest digits hb _ ih =>
      rw [digitsValue_cons (StandsFor.iff_digitValue?.mp hb), ih, List.reverse_cons,
        Nat.ofDigits_append, Nat.ofDigits_singleton, List.length_reverse, List.length_cons]
      ring

namespace Literal

variable {base value v : Nat} {text : Bytes}

theorem isDigitOf_iff {b : UInt8} :
    isDigitOf base b = true ↔ ∃ digit < base, Byte.digitValue? b = some digit := by
  constructor
  · exact fun h => (exists_digit h).2
  · rintro ⟨digit, hlt, hvalue⟩
    have hseparator : b ≠ byte '_' := by
      rintro rfl
      cases hvalue
    simp [isDigitOf, hseparator, hvalue, hlt]

/-- The bytes of a text are digits of a base if they stand for numbers below that. -/
theorem forall_isDigitOf_iff : (∀ b ∈ text, isDigitOf base b = true) ↔
    ∃ digits, List.Forall₂ StandsFor text digits ∧ ∀ digit ∈ digits, digit < base := by
  constructor
  · intro h
    induction text with
    | nil => exact ⟨[], .nil, by simp⟩
    | cons b rest ih =>
        obtain ⟨hb, hrest⟩ := List.forall_mem_cons.mp h
        obtain ⟨digit, hlt, hvalue⟩ := isDigitOf_iff.mp hb
        obtain ⟨digits, hstands, hbase⟩ := ih hrest
        exact ⟨digit :: digits, .cons (StandsFor.iff_digitValue?.mpr hvalue) hstands,
          List.forall_mem_cons.mpr ⟨hlt, hbase⟩⟩
  · rintro ⟨digits, hstands, hbase⟩
    induction hstands with
    | nil => simp
    | cons hb _ ih =>
        obtain ⟨hlt, hrest⟩ := List.forall_mem_cons.mp hbase
        exact List.forall_mem_cons.mpr
          ⟨isDigitOf_iff.mpr ⟨_, hlt, StandsFor.iff_digitValue?.mp hb⟩, ih hrest⟩

/-- A numeral in terms of its bytes. -/
theorem numeral_iff : Numeral base text value ↔
    text ≠ [] ∧ (∀ b ∈ text, isDigitOf base b = true) ∧ digitsValue base 0 text = value := by
  have hvalue {digits : List Nat} (hstands : List.Forall₂ StandsFor text digits) :
      digitsValue base 0 text = Nat.ofDigits base digits.reverse := by
    rw [digitsValue_eq_ofDigits hstands, Nat.zero_mul, Nat.zero_add]
  have hempty {digits : List Nat} (hstands : List.Forall₂ StandsFor text digits) :
      digits = [] ↔ text = [] := by
    rw [← List.length_eq_zero_iff, ← hstands.length_eq, List.length_eq_zero_iff]
  constructor
  · rintro ⟨digits, hne, hstands, hbase, rfl⟩
    exact ⟨fun h => hne ((hempty hstands).mpr h), forall_isDigitOf_iff.mpr ⟨digits, hstands, hbase⟩,
      hvalue hstands⟩
  · rintro ⟨hne, hdigits, rfl⟩
    obtain ⟨digits, hstands, hbase⟩ := forall_isDigitOf_iff.mp hdigits
    exact ⟨digits, fun h => hne ((hempty hstands).mp h), hstands, hbase, (hvalue hstands).symm⟩

/-! ### Integer literals -/

/-- The letters that announce a base behind a zero. -/
def baseLetters : List (UInt8 × Nat) :=
  [(byte 'x', 16), (byte 'X', 16), (byte 'b', 2), (byte 'B', 2), (byte 'o', 8), (byte 'O', 8)]

/-- The digits of a literal, with the underscores among them, and their base: what stands behind an
announced base if anything does, and otherwise the whole text in decimal. -/
inductive WrittenIn : Bytes → Nat → Bytes → Prop
  | announced {letter : UInt8} {base : Nat} {digits : Bytes}
      (hletter : (letter, base) ∈ baseLetters)
      (hdigits : digits ≠ []) : WrittenIn (byte '0' :: letter :: digits) base digits
  | plain {text : Bytes} (h : ∀ letter base digits, (letter, base) ∈ baseLetters → digits ≠ [] →
      text ≠ byte '0' :: letter :: digits) : WrittenIn text 10 text

theorem baseOfLetter?_eq_some_iff {letter : UInt8} :
    baseOfLetter? letter = some base ↔ (letter, base) ∈ baseLetters := by
  have hletters : ∀ letter,
      (baseOfLetter? letter).all (fun base => baseLetters.contains (letter, base)) = true := by
    decide +kernel
  have hbases : ∀ entry ∈ baseLetters, baseOfLetter? entry.1 = some entry.2 := by decide
  constructor
  · intro h
    simpa [h] using hletters letter
  · exact hbases (letter, base)

theorem splitBase_announced {letter : UInt8} {digits : Bytes}
    (hletter : (letter, base) ∈ baseLetters)
    (hdigits : digits ≠ []) : splitBase (byte '0' :: letter :: digits) = (base, digits) := by
  obtain ⟨digit, rest, rfl⟩ := List.exists_cons_of_ne_nil hdigits
  simp [splitBase, baseOfLetter?_eq_some_iff.mpr hletter]

theorem splitBase_plain (h : ∀ letter base digits, (letter, base) ∈ baseLetters → digits ≠ [] →
    text ≠ byte '0' :: letter :: digits) : splitBase text = (10, text) := by
  fun_cases splitBase text with
  | case1 zero letter digit rest hzero base hbase =>
      rw [beq_iff_eq] at hzero
      exact absurd (by rw [hzero])
        (h letter base (digit :: rest) (baseOfLetter?_eq_some_iff.mp hbase) (List.cons_ne_nil _ _))
  | case2 | case3 | case4 => rfl

/-- A literal is cut into its base and its digits as it is written. -/
theorem writtenIn_iff {digits : Bytes} :
    WrittenIn text base digits ↔ splitBase text = (base, digits) := by
  constructor
  · rintro (⟨hletter, hdigits⟩ | h)
    · exact splitBase_announced hletter hdigits
    · exact splitBase_plain h
  · intro h
    by_cases hannounced : ∃ letter base digits, (letter, base) ∈ baseLetters ∧ digits ≠ [] ∧
        text = byte '0' :: letter :: digits
    · obtain ⟨letter, announced, behind, hletter, hdigits, rfl⟩ := hannounced
      obtain ⟨rfl, rfl⟩ := Prod.mk.inj ((splitBase_announced hletter hdigits).symm.trans h)
      exact .announced hletter hdigits
    · have hplain : ∀ letter base digits, (letter, base) ∈ baseLetters → digits ≠ [] →
          text ≠ byte '0' :: letter :: digits :=
        fun letter base digits hletter hdigits htext =>
          hannounced ⟨letter, base, digits, hletter, hdigits, htext⟩
      obtain ⟨rfl, rfl⟩ := Prod.mk.inj ((splitBase_plain hplain).symm.trans h)
      exact .plain hplain

theorem WrittenIn.base_bounds {digits : Bytes} (h : WrittenIn text base digits) :
    0 < base ∧ base ≤ 16 := by
  have hletters : ∀ entry ∈ baseLetters, 0 < entry.2 ∧ entry.2 ≤ 16 := by decide
  rcases h with ⟨hletter, _⟩ | _
  · exact hletters _ hletter
  · decide

/-- Underscores are passed over. -/
theorem readDigits?_filter (value : Nat) (seen : Bool) (text : Bytes) :
    readDigits? base value seen text =
      readDigits? base value seen (text.filter (· != byte '_')) := by
  induction text generalizing value seen with
  | nil => rfl
  | cons b rest ih =>
      by_cases hb : b = byte '_'
      · rw [readDigits?, if_pos (by simpa using hb),
          List.filter_cons_of_neg (by simpa using hb), ih]
      · rw [List.filter_cons_of_pos (by simpa using hb), readDigits?, readDigits?]
        simp only [ih]

/-- What is read is within the limit, and its bytes are digits. -/
theorem readDigits?_sound {seen : Bool} (hvalue : value ≤ integerLimit)
    (htext : byte '_' ∉ text) (h : readDigits? base value seen text = some v) :
    (text = [] → seen = true) ∧ (∀ b ∈ text, isDigitOf base b = true) ∧
      digitsValue base value text = v ∧ v ≤ integerLimit := by
  induction text generalizing value seen with
  | nil =>
      simp only [readDigits?, Option.ite_none_right_eq_some, Option.some.injEq] at h
      obtain ⟨hseen, rfl⟩ := h
      exact ⟨fun _ => hseen, by simp, rfl, hvalue⟩
  | cons b rest ih =>
      rw [List.mem_cons, not_or] at htext
      obtain ⟨hb, hrest⟩ := htext
      rw [readDigits?, if_neg (by simpa using Ne.symm hb)] at h
      cases hdigit : Byte.digitValue? b with
      | none => simp [hdigit] at h
      | some digit =>
          simp only [hdigit, Bool.or_eq_true, decide_eq_true_eq, Option.ite_none_left_eq_some,
            not_or, not_le, not_lt] at h
          obtain ⟨⟨hlt, hlimit⟩, h⟩ := h
          obtain ⟨_, hdigits, hnumber, hv⟩ := ih hlimit hrest h
          exact ⟨fun hnil => absurd hnil (List.cons_ne_nil _ _),
            List.forall_mem_cons.mpr ⟨isDigitOf_iff.mpr ⟨digit, hlt, hdigit⟩, hdigits⟩,
            by rw [digitsValue_cons hdigit, hnumber], hv⟩

/-- Exactly the numerals within the limit are read, whatever underscores stand in them. -/
theorem readDigits?_eq_some_iff (hbase : 0 < base) : readDigits? base 0 false text = some v ↔
    Numeral base (text.filter (· != byte '_')) v ∧ v ≤ integerLimit := by
  rw [readDigits?_filter, numeral_iff]
  constructor
  · intro h
    obtain ⟨hne, hdigits, hvalue, hlimit⟩ :=
      readDigits?_sound (Nat.zero_le _) (by simp [List.mem_filter]) h
    exact ⟨⟨fun hnil => Bool.false_ne_true (hne hnil), hdigits, hvalue⟩, hlimit⟩
  · rintro ⟨⟨hne, hdigits, rfl⟩, hlimit⟩
    exact readDigits?_eq hbase hdigits hlimit fun hnil => absurd hnil hne

open Operator (word? word?_of_bounds)

/-- Reads digits as `readDigits?` does, with each product and each sum formed in a signed word of
64 bits; there is no result at all if one of them does not fit. -/
def readWords? (base : Nat) (value : Int) (seen : Bool) : Bytes → Option (Option Int)
  | [] => some (if seen then some value else none)
  | b :: rest =>
      if b == byte '_' then readWords? base value seen rest
      else
        match Byte.digitValue? b with
        | none => some none
        | some digit =>
            if base ≤ digit then some none
            else
              (word? (value * base)).bind fun product =>
                (word? (product + digit)).bind fun value =>
                  if integerLimit < value then some none else readWords? base value true rest

/-- The value of an integer literal, as it is computed in words of 64 bits. -/
def integerWords? (text : Bytes) : Option (Option Int) :=
  let (base, digits) := splitBase text
  readWords? base 0 false digits

/-- A value within the limit leaves room for one more digit in a word. -/
theorem readWords?_eq (hbase : base ≤ 16) {seen : Bool} (hvalue : value ≤ integerLimit) :
    readWords? base value seen text =
      some ((readDigits? base value seen text).map fun value => (value : Int)) := by
  induction text generalizing value seen with
  | nil => cases seen <;> rfl
  | cons b rest ih =>
      rw [readWords?, readDigits?]
      by_cases hb : (b == byte '_') = true
      · rw [if_pos hb, if_pos hb, ih hvalue]
      · rw [if_neg hb, if_neg hb]
        cases hdigit : Byte.digitValue? b with
        | none => rfl
        | some digit =>
            by_cases hlt : base ≤ digit
            · simp [hlt]
            · have hproduct : value * base ≤ integerLimit * 16 := Nat.mul_le_mul hvalue hbase
              have hword : word? ((value : Int) * base) = some ((value * base : Nat) : Int) := by
                rw [← Nat.cast_mul]
                exact word?_of_bounds (by omega) (by simp only [integerLimit] at hproduct; omega)
              have hsum : word? (((value * base : Nat) : Int) + digit) =
                  some ((value * base + digit : Nat) : Int) := by
                rw [← Nat.cast_add]
                exact word?_of_bounds (by omega) (by simp only [integerLimit] at hproduct; omega)
              simp only [hlt, if_false, hword, hsum, Option.bind_some, decide_false, Bool.false_or,
                decide_eq_true_eq, Nat.cast_lt]
              split
              · rfl
              · exact ih (by omega)

/-- An integer literal is what its digits stand for: behind an announced base, or in decimal, all of
its bytes but the underscores are digits, there is at least one, and their positional value has 32
bits. The computation in words of 64 bits finds the same, for texts of any length. -/
theorem integer?_exact (text : Bytes) :
    (∀ value, integer? text = some value ↔
      ∃ base digits, WrittenIn text base digits ∧
        Numeral base (digits.filter (· != byte '_')) value ∧ value ≤ 0xffffffff) ∧
    integerWords? text = some ((integer? text).map fun value => (value : Int)) := by
  obtain ⟨base, digits, hsplit⟩ : ∃ base digits, splitBase text = (base, digits) := ⟨_, _, rfl⟩
  have hwritten : WrittenIn text base digits := writtenIn_iff.mpr hsplit
  obtain ⟨hpositive, hsixteen⟩ := hwritten.base_bounds
  constructor
  · intro value
    rw [integer?, hsplit]
    simp only [readDigits?_eq_some_iff hpositive]
    constructor
    · exact fun h => ⟨base, digits, hwritten, h⟩
    · rintro ⟨base', digits', hwritten', h⟩
      obtain ⟨rfl, rfl⟩ := Prod.mk.inj (hsplit.symm.trans (writtenIn_iff.mp hwritten'))
      exact h
  · rw [integerWords?, integer?, hsplit]
    exact readWords?_eq hsixteen (Nat.zero_le _)

example : integer? (ascii "0x_fF") = some 255 ∧ integer? (ascii "0b") = none ∧
    integer? (ascii "4_294_967_296") = none := by decide

/-! ### Addresses -/

/-- The white space of the C locale. -/
def whiteSpace : Bytes := [byte ' ', byte '\t', byte '\n', 0x0b, 0x0c, byte '\r']

/-- A numeral that shows its base: a zero in front of an octal one, and a letter behind that of a
hexadecimal one. -/
inductive BasedNumeral : Bytes → Nat → Prop
  | decimal {text : Bytes} {value : Nat} (hfirst : text.head? ≠ some (byte '0'))
      (h : Numeral 10 text value) : BasedNumeral text value
  | octal {text : Bytes} {value : Nat} (hfirst : text.head? = some (byte '0'))
      (h : Numeral 8 text value) : BasedNumeral text value
  | hexadecimal {letter : UInt8} {digits : Bytes} {value : Nat}
      (hletter : letter = byte 'x' ∨ letter = byte 'X') (h : Numeral 16 digits value) :
      BasedNumeral (byte '0' :: letter :: digits) value

/-- White space, a sign and a numeral. -/
def SpelledWith (sign text : Bytes) (value : Nat) : Prop :=
  ∃ blanks numeral, text = blanks ++ sign ++ numeral ∧ (∀ b ∈ blanks, b ∈ whiteSpace) ∧
    BasedNumeral numeral value

/-- A spelling of a number of 32 bits that has no minus sign. -/
def SpellsAddress (text : Bytes) (value : Nat) : Prop :=
  (SpelledWith [] text value ∨ SpelledWith [byte '+'] text value) ∧ value ≤ 0xffffffff

theorem isBlank_iff {b : UInt8} : Byte.isBlank b = true ↔ b ∈ whiteSpace := by
  simp only [Byte.isBlank_iff, whiteSpace, List.mem_cons, List.not_mem_nil, or_false,
    ← UInt8.toNat_inj]
  change _ ↔ b.toNat = 32 ∨ b.toNat = 9 ∨ b.toNat = 10 ∨ b.toNat = 11 ∨ b.toNat = 12 ∨ b.toNat = 13
  omega

/-- The value of digits behind one more of them, if it is one of the base. -/
def digitBehind? (base value : Nat) (b : UInt8) : Option Nat :=
  (Byte.digitValue? b).bind fun digit => if digit < base then some (value * base + digit) else none

theorem positional?_eq (base : Nat) (text : Bytes) :
    positional? base text =
      if text.isEmpty then none else text.foldlM (digitBehind? base) 0 := by
  rw [positional?]
  congr 2
  funext value b
  rw [digitBehind?]
  cases Byte.digitValue? b <;> rfl

theorem foldlM_digitBehind?_eq_some_iff (start : Nat) :
    text.foldlM (digitBehind? base) start = some value ↔
      (∀ b ∈ text, isDigitOf base b = true) ∧ digitsValue base start text = value := by
  induction text generalizing start with
  | nil => simp [digitsValue]
  | cons b rest ih =>
      rw [List.foldlM_cons, List.forall_mem_cons, digitBehind?]
      cases hdigit : Byte.digitValue? b with
      | none => simp [isDigitOf_iff, hdigit]
      | some digit =>
          by_cases hlt : digit < base
          · simp [isDigitOf_iff, hdigit, hlt, ih, digitsValue_cons hdigit]
          · simp [isDigitOf_iff, hdigit, hlt]

theorem positional?_eq_some_iff : positional? base text = some value ↔ Numeral base text value := by
  rw [positional?_eq, numeral_iff, ← foldlM_digitBehind?_eq_some_iff]
  cases text with
  | nil => simp
  | cons b rest => exact ⟨fun h => ⟨List.cons_ne_nil _ _, h⟩, And.right⟩

theorem isDigitOf_mono {b : UInt8} {larger : Nat} (hle : base ≤ larger)
    (h : isDigitOf base b = true) : isDigitOf larger b = true := by
  obtain ⟨digit, hlt, hvalue⟩ := isDigitOf_iff.mp h
  exact isDigitOf_iff.mpr ⟨digit, Nat.lt_of_lt_of_le hlt hle, hvalue⟩

theorem numeral_zero_iff (hbase : 0 < base) : Numeral base [byte '0'] value ↔ value = 0 := by
  have hvalue : digitsValue base 0 [byte '0'] = 0 := by
    rw [@digitsValue_cons base 0 0 _ rfl, Nat.zero_mul]
    rfl
  have hdigit : isDigitOf base (byte '0') = true := isDigitOf_iff.mpr ⟨0, hbase, rfl⟩
  rw [numeral_iff, hvalue]
  exact ⟨fun h => h.2.2.symm, fun h =>
    ⟨List.cons_ne_nil _ _, List.forall_mem_singleton.mpr hdigit, h.symm⟩⟩

/-- The letter of a hexadecimal numeral, in either case. -/
theorem toLower_eq_hexLetter_iff {letter : UInt8} :
    Byte.toLower letter = byte 'x' ↔ letter = byte 'x' ∨ letter = byte 'X' :=
  Byte.toLower_eq_iff rfl

/-- The letter behind a zero is no octal digit. -/
theorem not_numeral_octal {letter : UInt8} {rest : Bytes}
    (hletter : Byte.toLower letter = byte 'x') :
    ¬Numeral 8 (byte '0' :: letter :: rest) value := by
  intro h
  have hdigit := (numeral_iff.mp h).2.1 letter (by simp)
  rcases toLower_eq_hexLetter_iff.mp hletter with rfl | rfl <;> cases hdigit

/-- A numeral is read in the base that it shows. -/
theorem basedNumeral_iff : BasedNumeral text value ↔
    positional? (splitNumeral text).1 (splitNumeral text).2 = some value := by
  rw [positional?_eq_some_iff]
  fun_cases splitNumeral text with
  | case1 zero letter rest hzero =>
      have hfirst : zero ≠ byte '0' := by simpa using hzero
      constructor
      · rintro (⟨_, h⟩ | ⟨hoctal, _⟩ | _)
        · exact h
        · exact absurd (Option.some.inj hoctal) hfirst
        · exact absurd rfl hfirst
      · exact .decimal fun h => hfirst (Option.some.inj h)
  | case2 zero letter rest hzero hletter =>
      obtain rfl : zero = byte '0' := by simpa using hzero
      rw [beq_iff_eq] at hletter
      constructor
      · rintro (⟨hdecimal, _⟩ | ⟨_, h⟩ | ⟨_, h⟩)
        · exact absurd rfl hdecimal
        · exact absurd h (not_numeral_octal hletter)
        · exact h
      · exact .hexadecimal (toLower_eq_hexLetter_iff.mp hletter)
  | case3 zero letter rest hzero hletter =>
      obtain rfl : zero = byte '0' := by simpa using hzero
      rw [beq_iff_eq] at hletter
      constructor
      · rintro (⟨hdecimal, _⟩ | ⟨_, h⟩ | ⟨hx, _⟩)
        · exact absurd rfl hdecimal
        · exact h
        · exact absurd (toLower_eq_hexLetter_iff.mpr hx) hletter
      · exact .octal rfl
  | case4 text hshort =>
      -- A zero alone has one value in both of its bases.
      have hoctal (h : text.head? = some (byte '0')) : text = [byte '0'] := by
        match text, hshort, h with
        | [zero], _, h => simpa using h
        | zero :: letter :: rest, hshort, _ => exact absurd rfl (hshort zero letter rest)
      constructor
      · rintro (⟨_, h⟩ | ⟨hfirst, h⟩ | _)
        · exact h
        · rw [hoctal hfirst] at h ⊢
          exact (numeral_zero_iff (by decide)).mpr ((numeral_zero_iff (by decide)).mp h)
        · exact absurd rfl (hshort _ _ _)
      · intro h
        by_cases hfirst : text.head? = some (byte '0')
        · refine .octal hfirst ?_
          rw [hoctal hfirst] at h ⊢
          exact (numeral_zero_iff (by decide)).mpr ((numeral_zero_iff (by decide)).mp h)
        · exact .decimal hfirst h

/-- A digit of the first ten is a decimal one. -/
theorem isDigit_of_isDigitOf {b : UInt8} (h : isDigitOf 10 b = true) : Byte.isDigit b = true := by
  obtain ⟨digit, hlt, hvalue⟩ := isDigitOf_iff.mp h
  by_contra hletter
  rw [Byte.digitValue?, if_neg hletter, Option.ite_none_right_eq_some, Option.some.injEq] at hvalue
  omega

/-- A numeral opens with a digit, which is neither blank nor a sign. -/
theorem BasedNumeral.exists_digit (h : BasedNumeral text value) :
    ∃ b rest, text = b :: rest ∧ Byte.isDigit b = true := by
  have hfirst {base : Nat} (hbase : base ≤ 10) (h : Numeral base text value) :
      ∃ b rest, text = b :: rest ∧ Byte.isDigit b = true := by
    obtain ⟨hne, hdigits, _⟩ := numeral_iff.mp h
    obtain ⟨b, rest, rfl⟩ := List.exists_cons_of_ne_nil hne
    have hb := isDigitOf_mono hbase (hdigits b (List.mem_cons_self ..))
    exact ⟨b, rest, rfl, isDigit_of_isDigitOf hb⟩
  rcases h with ⟨_, h⟩ | ⟨_, h⟩ | ⟨_, _⟩
  · exact hfirst (by decide) h
  · exact hfirst (by decide) h
  · exact ⟨_, _, rfl, rfl⟩

/-- A sign is cut off the numeral behind it. -/
theorem splitSign_eq_iff {behind numeral : Bytes} {negative : Bool}
    (h : BasedNumeral numeral value) :
    splitSign behind = (negative, numeral) ↔
      if negative = true then behind = byte '-' :: numeral
      else behind = numeral ∨ behind = byte '+' :: numeral := by
  obtain ⟨digit, rest, rfl, hdigit⟩ := h.exists_digit
  have hminus : digit ≠ byte '-' := Byte.ne_of_test hdigit rfl
  have hplus : digit ≠ byte '+' := Byte.ne_of_test hdigit rfl
  have hsigns : byte '-' ≠ byte '+' := by decide
  fun_cases splitSign behind with
  | case1 => cases negative <;> simp
  | case2 sign behind hsign =>
      obtain rfl : sign = byte '-' := by simpa using hsign
      cases negative <;> simp [hminus.symm, hsigns]
  | case3 sign behind hnot hsign =>
      obtain rfl : sign = byte '+' := by simpa using hsign
      cases negative <;> simp [hplus.symm, hsigns.symm]
  | case4 sign behind hnot hnone =>
      rw [beq_iff_eq] at hnot hnone
      cases negative <;> simp [hnot, hnone]

/-- The numeral of a spelling stands behind its blanks. -/
theorem spelledWith_iff {sign : Bytes} (hsign : ∀ b ∈ sign, Byte.isBlank b = false) :
    SpelledWith sign text value ↔
      ∃ numeral, text.dropWhile Byte.isBlank = sign ++ numeral ∧ BasedNumeral numeral value := by
  constructor
  · rintro ⟨blanks, numeral, rfl, hblanks, h⟩
    obtain ⟨digit, rest, rfl, hdigit⟩ := h.exists_digit
    refine ⟨_, ?_, h⟩
    rw [List.append_assoc,
      List.dropWhile_append_of_pos fun b hb => isBlank_iff.mpr (hblanks b hb)]
    cases sign with
    | nil =>
        exact List.dropWhile_cons_of_neg (by simp [Byte.isBlank_of_isDigit hdigit])
    | cons b rest =>
        exact List.dropWhile_cons_of_neg (by simpa using hsign b (List.mem_cons_self ..))
  · rintro ⟨numeral, hbehind, h⟩
    refine ⟨text.takeWhile Byte.isBlank, numeral, ?_, ?_, h⟩
    · rw [List.append_assoc, ← hbehind, List.takeWhile_append_dropWhile]
    · exact fun b hb => isBlank_iff.mp (List.mem_takeWhile_imp hb)

/-- A numeral of a text, and whether a minus sign stands before it. -/
def HasNumeral (negative : Bool) (text : Bytes) (value : Nat) : Prop :=
  ∃ numeral, splitSign (text.dropWhile Byte.isBlank) = (negative, numeral) ∧
    BasedNumeral numeral value

theorem hasNumeral_true_iff : HasNumeral true text value ↔ SpelledWith [byte '-'] text value := by
  rw [spelledWith_iff (List.forall_mem_singleton.mpr rfl)]
  refine exists_congr fun numeral => and_congr_left fun h => ?_
  rw [splitSign_eq_iff h, if_pos rfl]
  rfl

theorem hasNumeral_false_iff : HasNumeral false text value ↔
    SpelledWith [] text value ∨ SpelledWith [byte '+'] text value := by
  rw [spelledWith_iff (List.forall_mem_nil _), spelledWith_iff (List.forall_mem_singleton.mpr rfl),
    ← exists_or]
  refine exists_congr fun numeral => ?_
  rw [← or_and_right]
  refine and_congr_left fun h => ?_
  rw [splitSign_eq_iff h, if_neg Bool.false_ne_true]
  rfl

theorem HasNumeral.ne_nil {negative : Bool} (h : HasNumeral negative text value) : text ≠ [] := by
  rintro rfl
  obtain ⟨numeral, hsplit, hnumeral⟩ := h
  obtain ⟨digit, rest, rfl, _⟩ := hnumeral.exists_digit
  cases hsplit

/-- A numeral behind no minus sign has none at its front. -/
theorem HasNumeral.head_ne_minus (h : HasNumeral false text value) :
    text.head? ≠ some (byte '-') := by
  intro hhead
  obtain ⟨rest, rfl⟩ : ∃ rest, text = byte '-' :: rest := by
    cases text with
    | nil => cases hhead
    | cons b rest => exact ⟨rest, by rw [Option.some.inj hhead]⟩
  obtain ⟨_, hsplit, _⟩ := h
  cases hsplit

/-- A text without NUL and without a minus sign in front is read as its numeral. -/
theorem address?_eq_some_iff (hnul : (0 : UInt8) ∉ text) :
    (address? text).map UInt32.toNat = some v ↔
      text.head? ≠ some (byte '-') ∧ v ≤ addressLimit ∧
        ∃ negative value, HasNumeral negative text value ∧ wrapSign? negative value = some v := by
  have hwhole : text.takeWhile (· != 0) = text := by
    refine List.takeWhile_eq_self_iff.mpr fun b hb => ?_
    simpa using fun h : b = 0 => hnul (h ▸ hb)
  by_cases hempty : text = []
  · subst hempty
    exact iff_of_false (by simp [address?]) fun ⟨_, _, _, _, h, _⟩ => h.ne_nil rfl
  by_cases hminus : text.head? = some (byte '-')
  · exact iff_of_false (by simp [address?, hminus]) fun h => h.1 hminus
  obtain ⟨negative, numeral, hsplit⟩ :
      ∃ negative numeral, splitSign (text.dropWhile Byte.isBlank) = (negative, numeral) :=
        ⟨_, _, rfl⟩
  have haddress : address? text =
      ((positional? (splitNumeral numeral).1 (splitNumeral numeral).2).bind
        (wrapSign? negative)).bind fun value =>
          if value ≤ addressLimit then some value.toUInt32 else none := by
    rw [address?, hwhole, hsplit, if_neg (by simp [hempty, hminus]), if_neg (by simpa using hempty)]
    dsimp only
    cases (positional? (splitNumeral numeral).1 (splitNumeral numeral).2).bind
      (wrapSign? negative) <;> rfl
  have hword : (∃ other value, HasNumeral other text value ∧ wrapSign? other value = some v) ↔
      (positional? (splitNumeral numeral).1 (splitNumeral numeral).2).bind (wrapSign? negative) =
        some v := by
    rw [Option.bind_eq_some_iff]
    constructor
    · rintro ⟨other, value, ⟨numeral', hsplit', h⟩, hwrap⟩
      obtain ⟨rfl, rfl⟩ := Prod.mk.inj (hsplit.symm.trans hsplit')
      exact ⟨value, basedNumeral_iff.mp h, hwrap⟩
    · rintro ⟨value, h, hwrap⟩
      exact ⟨negative, value, ⟨numeral, hsplit, basedNumeral_iff.mpr h⟩, hwrap⟩
  rw [haddress, hword]
  cases (positional? (splitNumeral numeral).1 (splitNumeral numeral).2).bind
    (wrapSign? negative) with
  | none => simp
  | some word =>
      rw [Option.bind_some]
      by_cases hlimit : word ≤ addressLimit
      · have htoNat : word.toUInt32.toNat = word :=
          UInt32.toNat_ofNat_of_lt (Nat.lt_succ_of_le hlimit)
        simp only [if_pos hlimit, Option.map_some, htoNat, Option.some.injEq]
        exact ⟨fun h => ⟨hminus, h ▸ hlimit, h⟩, fun h => h.2.2⟩
      · simp only [if_neg hlimit, Option.map_none, Option.some.injEq]
        exact iff_of_false (by simp) fun h => hlimit (h.2.2 ▸ h.2.1)

/-- The text of an address, exactly. A text is an address if it spells a number of 32 bits without a
minus sign, and also if a minus sign stands behind white space and the number that is taken away
from the end of 64 bits is of 32 bits. -/
theorem address?_exact {text : Bytes} (hnul : (0 : UInt8) ∉ text) (v : Nat) :
    (address? text).map UInt32.toNat = some v ↔
      SpellsAddress text v ∨
      (text.head? ≠ some (byte '-') ∧ v ≤ 0xffffffff ∧
        ∃ n, SpelledWith [byte '-'] text n ∧ n < 2 ^ 64 ∧ 2 ^ 64 ∣ n + v) := by
  rw [address?_eq_some_iff hnul]
  constructor
  · rintro ⟨hhead, hlimit, negative, n, h, hwrap⟩
    rw [wrapSign?, Option.ite_none_left_eq_some] at hwrap
    obtain ⟨hn, hwrap⟩ := hwrap
    cases negative with
    | false =>
        obtain rfl : n = v := by simpa using hwrap
        exact .inl ⟨hasNumeral_false_iff.mp h, hlimit⟩
    | true =>
        rw [if_pos rfl, Option.some.injEq] at hwrap
        simp only [wordCount] at hn hwrap
        exact .inr ⟨hhead, hlimit, n, hasNumeral_true_iff.mp h, by omega, by omega⟩
  · rintro (⟨h, hlimit⟩ | ⟨hhead, hlimit, n, h, hn, hdvd⟩)
    · have hnumeral : HasNumeral false text v := hasNumeral_false_iff.mpr h
      refine ⟨hnumeral.head_ne_minus, hlimit, false, v, hnumeral, ?_⟩
      rw [wrapSign?, if_neg (by simp only [wordCount]; omega)]
      rfl
    · refine ⟨hhead, hlimit, true, n, hasNumeral_true_iff.mpr h, ?_⟩
      rw [wrapSign?, if_neg (by simp only [wordCount]; omega), if_pos rfl]
      simp only [wordCount, Option.some.injEq]
      omega

theorem address?_exact_signed : (0 : UInt8) ∉ ascii " +0x1F" ∧
    (SpellsAddress (ascii " +0x1F") 31 ∨
      ((ascii " +0x1F").head? ≠ some (byte '-') ∧ 31 ≤ 0xffffffff ∧
        ∃ n, SpelledWith [byte '-'] (ascii " +0x1F") n ∧ n < 2 ^ 64 ∧ 2 ^ 64 ∣ n + 31)) :=
  ⟨by decide, (address?_exact (by decide) 31).mp (by decide +kernel)⟩

/-- The largest number of 64 bits with a minus sign behind a blank is taken for the address one. -/
theorem address?_negated_behind_blank : ¬∀ text : Bytes, (0 : UInt8) ∉ text → ∀ v,
    (address? text).map UInt32.toNat = some v ↔ SpellsAddress text v := by
  intro h
  have hone : (address? (ascii " -18446744073709551615")).map UInt32.toNat = some 1 := by
    decide +kernel
  obtain ⟨hspelled, _⟩ := (h _ (by decide) 1).mp hone
  obtain ⟨numeral, hsplit, _⟩ := hasNumeral_false_iff.mpr hspelled
  have hminus : (splitSign ((ascii " -18446744073709551615").dropWhile Byte.isBlank)).1 = true := by
    decide +kernel
  rw [hsplit] at hminus
  cases hminus

end Literal

end NovelAsm
