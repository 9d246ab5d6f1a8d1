import RegLisp.Decimal.Numeral
import RegLisp.Decimal.Text

/-!
# Values and their types

Every value is one machine word. A `ValueType` says how a program means the word; a `Literal` is a
value as a program writes it. Floating-point values are carried as bits: programs read, print and
move them, and no instruction computes with them.
-/

namespace RegLisp

/-- A 32-bit floating-point value. -/
structure Single where
  bits : UInt32
  deriving DecidableEq, Repr

/-- A 64-bit floating-point value. -/
structure Double where
  bits : UInt64
  deriving DecidableEq, Repr

/-- Singles are always positional, and whole ones have no fraction part. -/
def Single.style : Decimal.Style := ⟨fun _ => true, false⟩

/-- Doubles are positional from `0.0001` up to `1e16`, and whole ones end in `.0`. -/
def Double.style : Decimal.Style := ⟨fun point => -4 < point && point ≤ 16, true⟩

/-- The single nearest to a numeral. -/
def Single.read? (word : List Char) : Option Single :=
  (Decimal.Numeral.read? word).map fun n => ⟨.ofNat (n.toBits .binary32)⟩

/-- The double nearest to a numeral. -/
def Double.read? (word : List Char) : Option Double :=
  (Decimal.Numeral.read? word).map fun n => ⟨.ofNat (n.toBits .binary64)⟩

/-- A single as source text: its digits and the mark that tells it from a double. -/
def Single.text (x : Single) : String :=
  Decimal.Format.binary32.text Single.style x.bits.toNat ++ "f"

/-- A double as source text. -/
def Double.text (x : Double) : String :=
  Decimal.Format.binary64.text Double.style x.bits.toNat

/-- How a word is meant. -/
inductive ValueType where
  | int
  | single
  | double
  /-- Nothing is known yet; agrees with every type. -/
  | unknown
  deriving DecidableEq, Repr, Inhabited

namespace ValueType

/-- The byte that stands for a type in a module file. -/
def toByte : ValueType → UInt8
  | int => 0
  | single => 1
  | double => 2
  | unknown => 3

/-- The type that a byte of a module file stands for. -/
def ofByte? (b : UInt8) : Option ValueType :=
  if b = 0 then some int
  else if b = 1 then some single
  else if b = 2 then some double
  else if b = 3 then some unknown
  else none

def name : ValueType → String
  | int => "int"
  | single => "single"
  | double => "double"
  | unknown => "unknown"

/-- The type that a program can name; `unknown` has no name in source text. -/
def ofName? : String → Option ValueType
  | "int" => some int
  | "single" => some single
  | "double" => some double
  | _ => none

def isKnown : ValueType → Bool
  | unknown => false
  | _ => true

def isFloat : ValueType → Bool
  | single | double => true
  | _ => false

/-- The type of an operation on two operands: the wider of two known types. -/
def promote : ValueType → ValueType → ValueType
  | unknown, t | t, unknown => t
  | double, _ | _, double => double
  | single, _ | _, single => single
  | int, int => int

/-- Whether two types may meet: they are equal, or one of them is not known. -/
def compatible (a b : ValueType) : Bool :=
  a == b || !a.isKnown || !b.isKnown

@[simp] theorem ofByte?_toByte (t : ValueType) : ofByte? t.toByte = some t := by
  cases t <;> rfl

theorem compatible_comm (a b : ValueType) : a.compatible b = b.compatible a := by
  cases a <;> cases b <;> rfl

end ValueType

/-- Whether two lists of types have one length and agree position by position. -/
def typesAgree (xs ys : List ValueType) : Bool :=
  xs.length == ys.length && (xs.zip ys).all fun (x, y) => x.compatible y

/-- Types in parentheses, separated by blanks. -/
def ValueType.listText (types : List ValueType) : String :=
  "(" ++ " ".intercalate (types.map name) ++ ")"

/-- A value as a program writes it. -/
inductive Literal where
  | int (value : Int64)
  | single (value : Single)
  | double (value : Double)
  deriving DecidableEq, Repr

namespace Literal

/-- The word that holds a literal: the two's complement of an integer, the bits of a
floating-point value. -/
def toWord : Literal → UInt64
  | int i => i.toUInt64
  | single x => x.bits.toUInt64
  | double x => x.bits

def type : Literal → ValueType
  | int _ => .int
  | single _ => .single
  | double _ => .double

/-- A literal as source text. -/
def text : Literal → String
  | int i => toString i.toInt
  | single x => x.text
  | double x => x.text

end Literal

end RegLisp
