import NovelAsm.Bytes

/-!
Integer literals: decimal digits, or digits of another base behind `0x`, `0b` or
`0o` in either case. Underscores may stand anywhere among the digits. A literal
has at least one digit, and its value fits 32 bits without a sign.
-/

namespace NovelAsm.Literal

/-- The largest value of an integer literal. -/
def integerLimit : Nat := 0xffffffff

/-- The base that a letter behind a leading zero stands for. -/
def baseOfLetter? (letter : UInt8) : Option Nat :=
  let letter := Byte.toLower letter
  if letter == byte 'x' then some 16
  else if letter == byte 'b' then some 2
  else if letter == byte 'o' then some 8
  else none

/-- The base of a literal and its digits. Two bytes alone are never a base: `0x` is a zero
and a letter. -/
def splitBase : Bytes → Nat × Bytes
  | zero :: letter :: digit :: rest =>
      if zero == byte '0' then
        match baseOfLetter? letter with
        | some base => (base, digit :: rest)
        | none => (10, zero :: letter :: digit :: rest)
      else (10, zero :: letter :: digit :: rest)
  | text => (10, text)

/-- Reads digits behind a value; the value is checked at each digit, so that it stays small
however long the text is. -/
def readDigits? (base value : Nat) (seen : Bool) : Bytes → Option Nat
  | [] => if seen then some value else none
  | b :: rest =>
      if b == byte '_' then readDigits? base value seen rest
      else
        match Byte.digitValue? b with
        | none => none
        | some digit =>
            let value := value * base + digit
            if base ≤ digit || integerLimit < value then none
            else readDigits? base value true rest

/-- The value of an integer literal. -/
def integer? (text : Bytes) : Option Nat :=
  let (base, digits) := splitBase text
  readDigits? base 0 false digits

end NovelAsm.Literal
