import NovelAsm.Bytes
import NovelAsm.Literal.Binary64

/-!
Real literals. The machine knows reals as integers scaled by one thousand. A
literal is read as the nearest binary64 value, that value is multiplied by one
thousand in the same arithmetic, and the product is rounded to an integer, a
half away from zero. Both roundings can be seen: `0.0015` becomes `2`.

A numeral may begin with blanks and a sign, has a digit before or behind its
point, and may end with a decimal exponent. Underscores are dropped first, a
text ends at its first NUL, and the empty text stands for zero.
-/

namespace NovelAsm.Literal

/-- The scale of reals. -/
def realScale : Nat := 1000

/-- The number `digits * 10 ^ exponent`, with a sign. -/
structure Decimal where
  negative : Bool
  digits : Nat
  exponent : Int
deriving DecidableEq, Repr

namespace Decimal

/-- The value of decimal digits. -/
def digitsValue (digits : Bytes) : Nat :=
  digits.foldl (fun n d => n * 10 + (d - byte '0').toNat) 0

/-- An optional sign: whether it is a minus, and what follows. -/
def takeSign : Bytes → Bool × Bytes
  | [] => (false, [])
  | b :: rest =>
      if b == byte '-' then (true, rest)
      else if b == byte '+' then (false, rest)
      else (false, b :: rest)

/-- The exponent that ends a numeral: nothing, or a letter, an optional sign and digits. -/
def parseExponent? : Bytes → Option Int
  | [] => some 0
  | letter :: rest =>
      let (negative, digits) := takeSign rest
      if Byte.toLower letter != byte 'e' || digits.isEmpty || !digits.all Byte.isDigit then none
      else some (if negative then -(digitsValue digits : Int) else digitsValue digits)

/-- The digits behind a point, if there is one, and what follows. -/
def takeFraction : Bytes → Bytes × Bytes
  | [] => ([], [])
  | b :: rest =>
      if b == byte '.' then (rest.takeWhile Byte.isDigit, rest.dropWhile Byte.isDigit)
      else ([], b :: rest)

/-- Reads a whole numeral. -/
def parse? (text : Bytes) : Option Decimal :=
  let (negative, body) := takeSign (text.dropWhile Byte.isBlank)
  let whole := body.takeWhile Byte.isDigit
  let (part, rest) := takeFraction (body.dropWhile Byte.isDigit)
  if whole.isEmpty && part.isEmpty then none
  else (parseExponent? rest).map fun exponent =>
    ⟨negative, digitsValue (whole ++ part), exponent - part.length⟩

/-- Past this many decimal places every magnitude is too large, or next to zero. -/
def placeLimit : Int := 400

/-- The binary64 magnitude nearest to a numeral, unless that is too large for any. Numerals
with an extreme exponent are answered without forming its power. -/
def magnitude? (x : Decimal) : Option Binary64 :=
  let places := (decimal x.digits).length + x.exponent
  if x.digits == 0 || places < -placeLimit then some ⟨0, 0⟩
  else if placeLimit < places then none
  else Binary64.nearest? (x.digits * Nat.pow 10 x.exponent.toNat) (Nat.pow 10 (-x.exponent).toNat)

end Decimal

/-- The largest scaled value of a literal. -/
def realLimit : Int := 0x7fffffff

/-- How far below zero the scaled value of a literal can lie. -/
def negativeLimit : Nat := 0x8000000000000000

/-- The scaled value for a numeral. -/
def scaledValue? (x : Decimal) : Option Int :=
  x.magnitude?.bind fun magnitude =>
    let scaled := (magnitude.scale? realScale).map Binary64.toNat
    if x.negative then some (-(min negativeLimit (scaled.getD negativeLimit) : Int))
    else scaled.bind fun n => if (n : Int) ≤ realLimit then some (n : Int) else none

/-- The value of a real literal, scaled by one thousand. -/
def real? (text : Bytes) : Option Int :=
  match (text.filter (· != byte '_')).takeWhile (· != 0) with
  | [] => some 0
  | numeral => (Decimal.parse? numeral).bind scaledValue?

end NovelAsm.Literal
