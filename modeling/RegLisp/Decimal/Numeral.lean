import RegLisp.Decimal.Binary

/-!
# Decimal numerals

A numeral is digits with an optional point and an optional power of ten, as in `12`, `1.5`, `3.`
and `2e-7`. It denotes an exact decimal, which is then rounded once to the nearest value of a
binary format.
-/

namespace RegLisp.Decimal

/-- The number `± digits * 10 ^ exponent`. -/
structure Numeral where
  negative : Bool
  digits : Nat
  exponent : Int
  deriving DecidableEq, Repr

/-- Split off an optional sign; the flag says whether it is a minus. -/
def splitSign : List Char → Bool × List Char
  | '-' :: cs => (true, cs)
  | '+' :: cs => (false, cs)
  | cs => (false, cs)

/-- The power of ten at the end of a numeral: nothing, or `e` with a sign and digits. -/
def readExponent? : List Char → Option Int
  | [] => some 0
  | c :: cs =>
    if c == 'e' || c == 'E' then
      let (negative, digits) := splitSign cs
      if digits.isEmpty || !digits.all Char.isDigit then none
      else
        let value : Int := Nat.ofDigitChars 10 digits 0
        some (if negative then -value else value)
    else none

/-- Read a whole word as a numeral. There is at least one digit before or after the point. -/
def Numeral.read? (word : List Char) : Option Numeral := do
  let (negative, cs) := splitSign word
  let whole := cs.takeWhile Char.isDigit
  let afterWhole := cs.dropWhile Char.isDigit
  let (fraction, rest) :=
    match afterWhole with
    | '.' :: cs => (cs.takeWhile Char.isDigit, cs.dropWhile Char.isDigit)
    | cs => ([], cs)
  if whole.isEmpty && fraction.isEmpty then none
  let exponent ← readExponent? rest
  return {
    negative
    digits := Nat.ofDigitChars 10 (whole ++ fraction) 0
    exponent := exponent - fraction.length
  }

/-- A power of ten beyond which every supported format overflows, and below whose negative every
one rounds to zero. -/
def decimalReach : Int := 400

/-- The bits of the value of a format nearest to a numeral. -/
def Numeral.toBits (f : Format) (n : Numeral) : Nat :=
  let size : Int := (Nat.toDigits 10 n.digits).length + n.exponent
  let magnitude :=
    if n.digits = 0 || size < -decimalReach then 0
    else if decimalReach < size then f.infinity
    else if 0 ≤ n.exponent then f.nearest (n.digits * Nat.pow 10 n.exponent.toNat) 1
    else f.nearest n.digits (Nat.pow 10 (-n.exponent).toNat)
  if n.negative then Nat.pow 2 f.signBit + magnitude else magnitude

end RegLisp.Decimal
