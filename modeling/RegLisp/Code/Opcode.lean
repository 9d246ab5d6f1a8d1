/-!
# Opcodes

The sixteen operations of the machine, their bytes in a module file, their mnemonics and the
shapes of their operands.
-/

namespace RegLisp

/-- An operation of the machine. -/
inductive Opcode where
  | nop
  /-- Call a function of the same module. -/
  | calli
  /-- Call a function of another module. -/
  | calle
  /-- Call a function of the same module in the frame of the caller. -/
  | lcalli
  /-- Call a function of another module in the frame of the caller. -/
  | lcalle
  /-- Go back to the caller. -/
  | ret
  | addi
  | subi
  | muli
  | divi
  /-- Whether the first operand is greater, as one or zero. -/
  | gt
  /-- Load a word of the constant pool. -/
  | loadi
  /-- Jump if a register is zero. -/
  | jmpc
  | jmp
  | mov
  /-- Stop the machine. -/
  | halt
  deriving DecidableEq, Repr

/-- How the three operand bytes of an instruction are read. -/
inductive Shape where
  | nullary
  /-- Registers: two operands and the result. -/
  | ternary
  /-- A register and an index into the constant pool, low byte first. -/
  | const
  /-- An index into the function table, low byte first. -/
  | call
  /-- A source, a destination and a mode. -/
  | binary
  deriving DecidableEq, Repr

namespace Opcode

/-- All opcodes, in the order of their bytes. -/
def all : List Opcode :=
  [nop, calli, calle, lcalli, lcalle, ret, addi, subi, muli, divi, gt, loadi, jmpc, jmp, mov, halt]

def toByte : Opcode → UInt8
  | nop => 0
  | calli => 1
  | calle => 2
  | lcalli => 3
  | lcalle => 4
  | ret => 5
  | addi => 6
  | subi => 7
  | muli => 8
  | divi => 9
  | gt => 10
  | loadi => 11
  | jmpc => 12
  | jmp => 13
  | mov => 14
  | halt => 15

/-- The opcode of a byte; bytes from sixteen on have none. -/
def ofByte? (b : UInt8) : Option Opcode := all[b.toNat]?

def mnemonic : Opcode → String
  | nop => "nop"
  | calli => "calli"
  | calle => "calle"
  | lcalli => "lcalli"
  | lcalle => "lcalle"
  | ret => "return"
  | addi => "addi"
  | subi => "subi"
  | muli => "muli"
  | divi => "divi"
  | gt => "gt"
  | loadi => "loadi"
  | jmpc => "jmpc"
  | jmp => "jmp"
  | mov => "mov"
  | halt => "halt"

def shape : Opcode → Shape
  | nop | ret | halt => .nullary
  | calli | calle | lcalli | lcalle => .call
  | addi | subi | muli | divi | gt => .ternary
  | loadi | jmpc | jmp => .const
  | mov => .binary

def isJump : Opcode → Bool
  | jmpc | jmp => true
  | _ => false

def isCall : Opcode → Bool
  | calli | calle | lcalli | lcalle => true
  | _ => false

/-- Whether a call reuses the frame of its caller. -/
def isTailCall : Opcode → Bool
  | lcalli | lcalle => true
  | _ => false

/-- Whether a call goes to another module. -/
def isExternalCall : Opcode → Bool
  | calle | lcalle => true
  | _ => false

/-- Whether control does not go on behind the instruction. -/
def isTerminator : Opcode → Bool
  | ret | halt => true
  | _ => false

/-- The call for a callee here or in another module, in return position or not. -/
def callFor (external tail : Bool) : Opcode :=
  match external, tail with
  | false, false => calli
  | true, false => calle
  | false, true => lcalli
  | true, true => lcalle

@[simp] theorem ofByte?_toByte (op : Opcode) : ofByte? op.toByte = some op := by
  cases op <;> rfl

end Opcode

end RegLisp
