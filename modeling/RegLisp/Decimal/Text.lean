import RegLisp.Decimal.Shortest

/-!
# Floating-point text

How a floating-point value is written: its shortest digits, laid out by a `Style`.
-/

namespace RegLisp.Decimal

/-- The decisions of a layout. `positional point` says whether the number `0.d₁d₂… * 10 ^ point`
is written without a power of ten; `keepFraction` asks for a fraction part in every positional
number. -/
structure Style where
  positional : Int → Bool
  keepFraction : Bool

/-- Zeros, as many as asked for; none for a negative count. -/
def zeros (count : Int) : List Char :=
  List.replicate count.toNat '0'

/-- Digits with a point after the first `point` of them, and zeros where digits are missing. -/
def layPositional (keepFraction : Bool) (digits : List Char) (point : Int) : List Char :=
  if point ≤ 0 then '0' :: '.' :: zeros (-point) ++ digits
  else if (digits.length : Int) ≤ point then
    digits ++ zeros (point - digits.length) ++ if keepFraction then ['.', '0'] else []
  else digits.take point.toNat ++ '.' :: digits.drop point.toNat

/-- One digit, the others after a point, and the power of ten. -/
def layScientific (digits : List Char) (point : Int) : List Char :=
  let mantissa :=
    match digits with
    | first :: rest@(_ :: _) => first :: '.' :: rest
    | _ => digits
  mantissa ++ 'e' :: (toString (point - 1)).toList

/-- Lay out digits by a style. -/
def Style.lay (style : Style) (d : Digits) : List Char :=
  let digits := Nat.toDigits 10 d.digits
  let point := digits.length + d.exponent
  if style.positional point then layPositional style.keepFraction digits point
  else layScientific digits point

/-- Write the value with the given bits: sign, then digits or the name of a value without any. -/
def Format.text (f : Format) (style : Style) (bits : Nat) : String :=
  let magnitude := bits % Nat.pow 2 f.signBit
  let sign := if magnitude < bits then ['-'] else []
  if f.infinity < magnitude then "NaN"
  else if magnitude = f.infinity then String.ofList (sign ++ "inf".toList)
  else if magnitude = 0 then
    String.ofList (sign ++ if style.keepFraction then "0.0".toList else ['0'])
  else String.ofList (sign ++ style.lay (f.magnitude magnitude).shortest)

end RegLisp.Decimal
