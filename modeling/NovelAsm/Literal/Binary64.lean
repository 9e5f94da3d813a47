/-!
Rounding to the nearest value of the binary64 format, in exact arithmetic on
ratios. A magnitude is a significand below `2 ^ 53` times a power of two; a ratio
is rounded to the nearest one, and from the middle between two to the one with
an even significand.
-/

namespace NovelAsm.Literal

/-- The finite magnitude `significand * 2 ^ exponent`. -/
structure Binary64 where
  significand : Nat
  exponent : Int
deriving DecidableEq, Repr

namespace Binary64

/-- The exponent of the smallest magnitude above zero. -/
def leastExponent : Int := -1074

/-- All magnitudes are below `2 ^ 1024`. -/
def exponentLimit : Nat := 1024

/-- A quotient rounded to the nearest integer, a half to the even neighbour. -/
def roundHalfEven (num den : Nat) : Nat :=
  let quotient := num / den
  let twice := 2 * (num % den)
  if den < twice || (twice == den && quotient % 2 == 1) then quotient + 1 else quotient

/-- The ratio `num / den` divided by a power of two. -/
def unscale (num den : Nat) (exponent : Int) : Nat × Nat :=
  (num * Nat.pow 2 (-exponent).toNat, den * Nat.pow 2 exponent.toNat)

/-- The exponent of the magnitudes around `num / den`: that of the last place of a 53-bit
significand, but not below the least one. -/
def placeOf (num den : Nat) : Int :=
  let guess : Int := num.log2 - den.log2
  let (high, low) := unscale num den guess
  max leastExponent ((if high < low then guess - 1 else guess) - 52)

/-- The magnitude nearest to `num / den`, unless that is too large for any. -/
def nearest? (num den : Nat) : Option Binary64 :=
  let exponent := placeOf num den
  let (high, low) := unscale num den exponent
  let significand := roundHalfEven high low
  if exponentLimit ≤ significand.log2 + exponent then none else some ⟨significand, exponent⟩

/-- The magnitude as a ratio. -/
def ratio (x : Binary64) : Nat × Nat :=
  (x.significand * Nat.pow 2 x.exponent.toNat, Nat.pow 2 (-x.exponent).toNat)

/-- The product with an integer, rounded. -/
def scale? (x : Binary64) (factor : Nat) : Option Binary64 :=
  nearest? (x.ratio.1 * factor) x.ratio.2

/-- The nearest integer, a half away from zero. -/
def toNat (x : Binary64) : Nat := (2 * x.ratio.1 + x.ratio.2) / (2 * x.ratio.2)

end Binary64

end NovelAsm.Literal
