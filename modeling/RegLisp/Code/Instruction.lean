import RegLisp.Code.Opcode
import RegLisp.Text.Radix

/-!
# Instructions

An instruction is four bytes: an opcode and three operands, which are read by the shape of the
opcode. Instructions with bytes that are no opcode can be held and printed, but not executed.
-/

namespace RegLisp

/-- Four bytes of code. -/
structure Instruction where
  opcode : UInt8
  a : UInt8 := 0
  b : UInt8 := 0
  c : UInt8 := 0
  deriving DecidableEq, Repr, Inhabited

/-- Where the two registers of a `mov` lie. The window is the start of the next callee's frame. -/
inductive MoveMode where
  /-- Both in the frame. -/
  | frame
  /-- From the frame into the window: an argument. -/
  | toWindow
  /-- From the window into the frame: a result. -/
  | fromWindow
  deriving DecidableEq, Repr

def MoveMode.toByte : MoveMode → UInt8
  | frame => 0
  | toWindow => 1
  | fromWindow => 2

def MoveMode.ofByte? (b : UInt8) : Option MoveMode :=
  if b = 0 then some frame
  else if b = 1 then some toWindow
  else if b = 2 then some fromWindow
  else none

@[simp] theorem MoveMode.ofByte?_toByte (m : MoveMode) : ofByte? m.toByte = some m := by
  cases m <;> rfl

namespace Instruction

def nullary (op : Opcode) : Instruction := ⟨op.toByte, 0, 0, 0⟩

/-- An operation on the registers `lhs` and `rhs` with its result in `result`. -/
def ternary (op : Opcode) (lhs rhs result : UInt8) : Instruction := ⟨op.toByte, lhs, rhs, result⟩

/-- A register and an index into the constant pool. -/
def const (op : Opcode) (register : UInt8) (index : UInt16) : Instruction :=
  ⟨op.toByte, register, index.toUInt8, (index >>> 8).toUInt8⟩

/-- A call through the function table; the index has 24 bits. -/
def call (op : Opcode) (index : UInt32) : Instruction :=
  ⟨op.toByte, index.toUInt8, (index >>> 8).toUInt8, (index >>> 16).toUInt8⟩

def mov (src dst : UInt8) (mode : MoveMode) : Instruction :=
  ⟨Opcode.mov.toByte, src, dst, mode.toByte⟩

/-- The operation of an instruction, if its first byte is an opcode. -/
def op? (i : Instruction) : Option Opcode := Opcode.ofByte? i.opcode

/-- The index into the constant pool. -/
def constIndex (i : Instruction) : Nat := i.b.toNat + 256 * i.c.toNat

/-- The index into the function table. -/
def callIndex (i : Instruction) : Nat := i.a.toNat + 256 * i.b.toNat + 65536 * i.c.toNat

/-- The mode of a `mov`, if its last byte is one. -/
def moveMode? (i : Instruction) : Option MoveMode := MoveMode.ofByte? i.c

/-- The bytes of an instruction in a module file. -/
def toBytes (i : Instruction) : List UInt8 := [i.opcode, i.a, i.b, i.c]

/-- The greatest register of its own frame that an instruction touches. Registers in the window of
a `mov` belong to the next frame. -/
def maxLocalRegister (i : Instruction) : Option Nat :=
  match i.op? with
  | none => none
  | some op =>
    match op.shape with
    | .ternary => some (max (max i.a.toNat i.b.toNat) i.c.toNat)
    | .const => if op = .jmp then none else some i.a.toNat
    | .binary =>
      match i.moveMode? with
      | some .frame => some (max i.a.toNat i.b.toNat)
      | some .toWindow => some i.a.toNat
      | some .fromWindow => some i.b.toNat
      | none => none
    | .nullary | .call => none

/-- The operands of a `mov` as text: `r` marks a register of the frame and `w` one of the
window. -/
def moveText (i : Instruction) : String :=
  let a := i.a.toNat
  let b := i.b.toNat
  match i.moveMode? with
  | some .frame => s!"r{a}, r{b}"
  | some .toWindow => s!"r{a}, w{b}"
  | some .fromWindow => s!"w{a}, r{b}"
  | none => s!"r{a}, r{b}, ?{i.c.toNat}"

/-- The operands of an instruction as text, with bare indices. -/
def operandText (i : Instruction) (op : Opcode) : String :=
  let a := i.a.toNat
  match op.shape with
  | .nullary => ""
  | .ternary => s!" r{a}, r{i.b.toNat}, r{i.c.toNat}"
  | .const => if op = .jmp then s!" #{i.constIndex}" else s!" r{a}, #{i.constIndex}"
  | .call => s!" @{i.callIndex}"
  | .binary => s!" {i.moveText}"

/-- An instruction as assembly text, with bare indices. -/
def text (i : Instruction) : String :=
  match i.op? with
  | none => s!"<invalid 0x{Text.hex 2 i.opcode.toNat}>"
  | some op => op.mnemonic ++ i.operandText op

end Instruction

end RegLisp
