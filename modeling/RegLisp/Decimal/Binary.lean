/-!
# Binary floating-point formats

A format stores a sign bit, an exponent field and a fraction field. The bits below the sign bit,
read as a number, count the representable magnitudes upwards from zero, so rounding to the nearest
magnitude is rounding to the nearest such number.
-/

namespace RegLisp.Decimal

/-- A binary interchange format, given by the widths of its fields. -/
structure Format where
  fractionBits : Nat
  exponentBits : Nat
  deriving DecidableEq, Repr

namespace Format

/-- The 32-bit format. -/
def binary32 : Format := ⟨23, 8⟩

/-- The 64-bit format. -/
def binary64 : Format := ⟨52, 11⟩

/-- The position of the sign bit. -/
def signBit (f : Format) : Nat := f.fractionBits + f.exponentBits

/-- The magnitude bits of infinity: every exponent bit set and an empty fraction. -/
def infinity (f : Format) : Nat := (Nat.pow 2 f.exponentBits - 1) * Nat.pow 2 f.fractionBits

/-- The exponent of two of the smallest positive magnitude. -/
def leastExponent (f : Format) : Int :=
  2 - Nat.pow 2 (f.exponentBits - 1) - f.fractionBits

end Format

/-- The quotient rounded to the nearest whole number, a half going to the even neighbour. -/
def roundHalfEven (num den : Nat) : Nat :=
  let quotient := num / den
  let twice := 2 * (num % den)
  if twice < den then quotient
  else if den < twice then quotient + 1
  else quotient + quotient % 2

/-- The greatest `e` with `2 ^ e ≤ num / den`, for positive arguments. -/
def floorLog2 (num den : Nat) : Int :=
  let guess : Int := (num.log2 : Int) - den.log2
  let reached :=
    if 0 ≤ guess then decide (den * Nat.pow 2 guess.toNat ≤ num)
    else decide (den ≤ num * Nat.pow 2 (-guess).toNat)
  if reached then guess else guess - 1

/-- The magnitude bits nearest to the positive quotient `num / den`. Magnitudes past the greatest
finite one give infinity. -/
def Format.nearest (f : Format) (num den : Nat) : Nat :=
  let least := f.leastExponent
  let exponent := max least (floorLog2 num den - f.fractionBits)
  let mantissa :=
    if 0 ≤ exponent then roundHalfEven num (den * Nat.pow 2 exponent.toNat)
    else roundHalfEven (num * Nat.pow 2 (-exponent).toNat) den
  min f.infinity ((exponent - least).toNat * Nat.pow 2 f.fractionBits + mantissa)

/-- A finite magnitude as `mantissa * 2 ^ exponent`, with the distances to its neighbours: the
reals that round to it reach from `2 ^ exponent / 2` above it down to the same distance below, or
half of that below a power of two. -/
structure Magnitude where
  mantissa : Nat
  exponent : Int
  narrowBelow : Bool
  deriving DecidableEq, Repr

/-- Split finite magnitude bits into mantissa and exponent. -/
def Format.magnitude (f : Format) (bits : Nat) : Magnitude :=
  let fraction := bits % Nat.pow 2 f.fractionBits
  let field := bits / Nat.pow 2 f.fractionBits
  if field = 0 then ⟨fraction, f.leastExponent, false⟩
  else ⟨Nat.pow 2 f.fractionBits + fraction, f.leastExponent + (field - 1 : Nat), fraction == 0⟩

end RegLisp.Decimal
