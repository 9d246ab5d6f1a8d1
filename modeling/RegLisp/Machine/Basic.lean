import RegLisp.Image.Basic

/-!
# The machine

The machine runs an image on one file of registers. A frame is a stretch of registers: register
zero takes the result of its function, and the next ones its arguments. Behind the frame begins
the window, which is where the frame of the next callee will be.
-/

namespace RegLisp

/-- The registers that a frame can reach: 256 of its own, and as many in the window. -/
def minRegisters : Nat := 512

/-- Bounds on a run. -/
structure Limits where
  registerFileSize : Nat := 65536
  maxCallStack : Nat := 1024
  /-- How many instructions may be executed; zero for any number. -/
  maxSteps : Nat := 0
  /-- Whether a run is to be logged. It has no influence on the run. -/
  trace : Bool := false
  deriving DecidableEq, Repr

/-- What can go wrong when an instruction is executed. -/
inductive FaultKind where
  | divisionByZero
  /-- The quotient has no 64-bit representation. -/
  | arithmeticOverflow
  | invalidOpcode (byte : UInt8)
  /-- The call stack or the file of registers is exhausted. -/
  | stackOverflow
  | invalidConstant (index : Nat)
  | invalidFunction (index : Nat)
  | invalidMoveMode (byte : UInt8)
  | pcOutOfBounds
  | invalidJumpTarget (word : UInt64)
  | returnWithEmptyStack
  | stepLimit (limit : Nat)
  /-- The machine has already stopped on a fault. -/
  | notRunning
  deriving DecidableEq, Repr

def FaultKind.message : FaultKind → String
  | divisionByZero => "Division by zero"
  | arithmeticOverflow => "Arithmetic overflow"
  | invalidOpcode byte => s!"Invalid opcode: 0x{Text.hex 2 byte.toNat}"
  | stackOverflow => "Stack overflow"
  | invalidConstant index => s!"Invalid constant index: {index}"
  | invalidFunction index => s!"Invalid function index: {index}"
  | invalidMoveMode byte => s!"Invalid move mode: {byte.toNat}"
  | pcOutOfBounds => "Program counter out of bounds"
  | invalidJumpTarget word => s!"Invalid jump target: {word.toNat}"
  | returnWithEmptyStack => "Return with empty call stack"
  | stepLimit limit => s!"Step limit of {limit} instructions reached"
  | notRunning => "VM is not running"

/-- A fault with the address where it arose, and the first byte of the instruction there if it was
read. -/
structure Fault where
  kind : FaultKind
  address : Nat
  opcode : Option UInt8
  deriving DecidableEq, Repr

def Fault.message (f : Fault) : String :=
  let place := s!"{f.kind.message} at {Text.hex 4 f.address}"
  match f.opcode with
  | none => place
  | some byte =>
    match Opcode.ofByte? byte with
    | some op => s!"{place} ({op.mnemonic})"
    | none => s!"{place} (0x{Text.hex 2 byte.toNat})"

/-- What a caller needs to go on. -/
structure Frame where
  returnPc : Nat
  base : Nat
  module : Nat
  reservation : Nat
  deriving DecidableEq, Repr

inductive Status where
  | running
  | halted
  | faulted
  deriving DecidableEq, Repr

/-- The state of a run. -/
structure Machine where
  registers : Array Int64
  /-- The callers, the latest last. -/
  stack : Array Frame := #[]
  /-- The address of the next instruction. -/
  pc : Nat
  /-- The first register of the current frame. -/
  base : Nat := 0
  /-- The size of the current frame. -/
  reservation : Nat
  /-- The module whose constants and functions are in use. -/
  module : Nat := 0
  status : Status := .running
  /-- How many instructions have been executed. -/
  steps : Nat := 0
  /-- The greatest depth that the stack has had. -/
  peak : Nat := 0
  deriving DecidableEq, Repr

namespace Machine

/-- The machine at the start of an image. -/
def start (img : Image) (limits : Limits) : Machine :=
  { registers := Array.replicate (max limits.registerFileSize minRegisters) 0
    pc := img.entry.1
    reservation := img.entry.2 }

/-- Go back to the start of an image, with every register cleared. -/
def reset (img : Image) (m : Machine) : Machine :=
  { registers := Array.replicate m.registers.size 0
    pc := img.entry.1
    reservation := img.entry.2 }

/-- The value of a register of the file. -/
def register (m : Machine) (index : Nat) : Int64 := m.registers.getD index 0

/-- The value of a register of the current frame. -/
def reg (m : Machine) (r : UInt8) : Int64 := m.register (m.base + r.toNat)

/-- Where a register of the window lies in the file. -/
def window (m : Machine) (r : UInt8) : Nat := m.base + m.reservation + r.toNat

/-- The result of the program: the first register of the file. -/
def result (m : Machine) : Int64 := m.register 0

def depth (m : Machine) : Nat := m.stack.size

end Machine

end RegLisp
