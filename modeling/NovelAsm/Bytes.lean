/-!
Text as the assembler sees it: a list of bytes with no encoding laid over it.
Scripts may hold NUL, control bytes and broken UTF-8, so every table of this
library is about single bytes, and the character classes know ASCII alone.

Constant texts are written as strings and enter through `ascii`; numbers leave
through `decimal` and `hex`.
-/

namespace NovelAsm

/-- A text or a block of code. -/
abbrev Bytes := List UInt8

/-- The byte of an ASCII character. -/
def byte (c : Char) : UInt8 := c.toNat.toUInt8

/-- The bytes of an ASCII text. -/
def ascii (text : String) : Bytes := text.toList.map byte

namespace Byte

def isDigit (b : UInt8) : Bool := byte '0' ≤ b && b ≤ byte '9'

def isUpper (b : UInt8) : Bool := byte 'A' ≤ b && b ≤ byte 'Z'

def isLower (b : UInt8) : Bool := byte 'a' ≤ b && b ≤ byte 'z'

def isHexDigit (b : UInt8) : Bool :=
  isDigit b || (byte 'a' ≤ b && b ≤ byte 'f') || (byte 'A' ≤ b && b ≤ byte 'F')

/-- A byte that may open a name. -/
def isNameStart (b : UInt8) : Bool := isUpper b || isLower b || b == byte '_'

/-- A byte that may stand inside a name. -/
def isNamePart (b : UInt8) : Bool := isNameStart b || isDigit b

/-- The blanks that may stand before a numeral on the command line. -/
def isBlank (b : UInt8) : Bool := b == byte ' ' || (0x09 ≤ b && b ≤ 0x0d)

def toLower (b : UInt8) : UInt8 := if isUpper b then b + 32 else b

/-- What a hexadecimal digit stands for, in either case. -/
def digitValue? (b : UInt8) : Option Nat :=
  if isDigit b then some (b - byte '0').toNat
  else if isHexDigit b then some ((toLower b - byte 'a').toNat + 10)
  else none

end Byte

namespace Bytes

def toLower (text : Bytes) : Bytes := text.map Byte.toLower

/-- What follows a beginning, if a text has that. -/
def after? : Bytes → Bytes → Option Bytes
  | [], text => some text
  | _ :: _, [] => none
  | a :: start, b :: text => if a == b then after? start text else none

/-- The texts of a list with a separator between neighbours. -/
def join (separator : Bytes) : List Bytes → Bytes
  | [] => []
  | [text] => text
  | text :: rest => text ++ separator ++ join separator rest

end Bytes

/-- A number in decimal, without leading zeros. -/
def decimal (n : Nat) : Bytes := (Nat.toDigits 10 n).map byte

/-- A signed number in decimal, with a minus sign below zero. -/
def signedDecimal : Int → Bytes
  | .ofNat n => decimal n
  | .negSucc n => byte '-' :: decimal (n + 1)

/-- A number in lower-case hexadecimal, filled up with zeros to a width. -/
def hex (width n : Nat) : Bytes :=
  let digits := (Nat.toDigits 16 n).map byte
  List.replicate (width - digits.length) (byte '0') ++ digits

end NovelAsm
