import NovelAsm.Bytes

/-!
Addresses as they are written on the command line: blanks, a sign, and a numeral,
which is hexadecimal behind `0x`, octal behind another zero, and decimal
otherwise. Nothing may follow. A text ends at its first NUL.

The numeral is read as 64 bits, where a minus sign takes it to the other end of
the range. Almost every negated numeral is thereby too large for an address, and
a text that begins with the sign is no address at all.
-/

namespace NovelAsm.Literal

def addressLimit : Nat := 0xffffffff

/-- The base of a numeral and its digits. -/
def splitNumeral : Bytes → Nat × Bytes
  | zero :: letter :: rest =>
      if zero != byte '0' then (10, zero :: letter :: rest)
      else if Byte.toLower letter == byte 'x' then (16, rest)
      else (8, zero :: letter :: rest)
  | digits => (10, digits)

/-- The value of digits of a base, if there are any and all are of that base. -/
def positional? (base : Nat) (digits : Bytes) : Option Nat :=
  if digits.isEmpty then none
  else
    digits.foldlM
      (fun value b =>
        match Byte.digitValue? b with
        | some digit => if digit < base then some (value * base + digit) else none
        | none => none)
      0

/-- Whether a numeral behind blanks has a minus sign, and the numeral. -/
def splitSign : Bytes → Bool × Bytes
  | [] => (false, [])
  | sign :: rest =>
      if sign == byte '-' then (true, rest)
      else if sign == byte '+' then (false, rest)
      else (false, sign :: rest)

/-- How many numbers have 64 bits. -/
def wordCount : Nat := 0x10000000000000000

/-- A number of 64 bits, or its negative in the same range. -/
def wrapSign? (negative : Bool) (value : Nat) : Option Nat :=
  if wordCount ≤ value then none
  else if negative then some ((wordCount - value) % wordCount)
  else some value

/-- The address that a text stands for. A text that begins with NUL stands for zero. -/
def address? (text : Bytes) : Option UInt32 :=
  let numeral := text.takeWhile (· != 0)
  if text.isEmpty || text.head? == some (byte '-') then none
  else if numeral.isEmpty then some 0
  else
    let (negative, numeral) := splitSign (numeral.dropWhile Byte.isBlank)
    let (base, digits) := splitNumeral numeral
    match (positional? base digits).bind (wrapSign? negative) with
    | some value => if value ≤ addressLimit then some value.toUInt32 else none
    | none => none

end NovelAsm.Literal
