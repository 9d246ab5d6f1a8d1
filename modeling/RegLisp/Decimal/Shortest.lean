import RegLisp.Decimal.Binary

/-!
# The fewest digits that read back

A finite magnitude is written with the fewest decimal digits whose value still rounds to it. For a
given number of digits only the two multiples of the power of ten next to the magnitude matter: if
any multiple rounds to it, one of these does.
-/

namespace RegLisp.Decimal

/-- The decimal `digits * 10 ^ exponent`. -/
structure Digits where
  digits : Nat
  exponent : Int
  deriving DecidableEq, Repr

/-- A magnitude and the ends of the interval that rounds to it, over one denominator. The ends
belong to the interval when `closed`. -/
structure Interval where
  low : Nat
  value : Nat
  high : Nat
  den : Nat
  closed : Bool
  deriving DecidableEq, Repr

/-- The interval of reals that round to a magnitude; its ends belong to it when the mantissa is
even. -/
def Magnitude.interval (m : Magnitude) : Interval :=
  let exponent := m.exponent - 2
  let scale := Nat.pow 2 exponent.toNat
  let value := 4 * m.mantissa
  { low := (value - if m.narrowBelow then 1 else 2) * scale
    value := value * scale
    high := (value + 2) * scale
    den := Nat.pow 2 (-exponent).toNat
    closed := m.mantissa % 2 == 0 }

/-- The greatest `e` with `10 ^ e ≤ num / den`, for positive arguments. The first guess comes from
the lengths in base two and is off by at most one. -/
def floorLog10 (num den : Nat) : Int :=
  let reached (e : Int) : Bool := den * Nat.pow 10 e.toNat ≤ num * Nat.pow 10 (-e).toNat
  let guess : Int := Int.fdiv (((num.log2 : Int) - den.log2) * 30103) 100000
  if reached (guess + 1) then guess + 1
  else if reached guess then guess
  else guess - 1

/-- The multiple of `10 ^ exponent` nearest to the value among those in the interval, if the value
has such a neighbour. Of two equally near ones the greater is taken. -/
def Interval.onGrid? (i : Interval) (exponent : Int) : Option Digits :=
  let scale := Nat.pow 10 (-exponent).toNat
  let unit := i.den * Nat.pow 10 exponent.toNat
  let low := i.low * scale
  let value := i.value * scale
  let high := i.high * scale
  let below := value / unit
  let rest := value % unit
  let belowFits := low < below * unit || (i.closed && low == below * unit)
  let aboveFits := (below + 1) * unit < high || (i.closed && (below + 1) * unit == high)
  if aboveFits && (!belowFits || unit ≤ 2 * rest) then some ⟨below + 1, exponent⟩
  else if belowFits then some ⟨below, exponent⟩
  else none

/-- The first of the next `count` finer grids that has a hit, from the grid of `10 ^ exponent`. -/
def Interval.search (i : Interval) (exponent : Int) : Nat → Digits
  | 0 => ⟨0, exponent⟩
  | count + 1 =>
    match i.onGrid? exponent with
    | some digits => digits
    | none => i.search (exponent - 1) count

/-- Drop zeros at the end of the digits, at most `count` of them. -/
def Digits.trim (d : Digits) : Nat → Digits
  | 0 => d
  | count + 1 =>
    if d.digits % 10 = 0 then Digits.trim ⟨d.digits / 10, d.exponent + 1⟩ count else d

/-- No supported format needs more significant digits than this. -/
def maxDigits : Nat := 17

/-- The shortest decimal that reads back as a positive finite magnitude. -/
def Magnitude.shortest (m : Magnitude) : Digits :=
  let interval := m.interval
  let first := floorLog10 interval.value interval.den
  (interval.search first maxDigits).trim maxDigits

end RegLisp.Decimal
