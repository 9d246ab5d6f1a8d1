import RegLisp.Machine.Basic

/-!
# Steps of the machine

An instruction is executed in two parts. `Machine.plan` reads the machine and says what the
instruction does to it, or which fault it raises; `Machine.apply` does it. A fault therefore
leaves everything as it was, apart from the status and the count of instructions.
-/

namespace RegLisp

/-- Where a call goes. -/
structure Callee where
  address : Nat
  module : Nat
  reservation : Nat
  deriving DecidableEq, Repr

/-- What an instruction does to the machine. -/
inductive Effect where
  /-- Nothing, apart from going on. -/
  | proceed
  /-- Set a register of the file. -/
  | write (index : Nat) (value : Int64)
  | jump (target : Nat)
  /-- Push the caller, and enter the callee in the window. -/
  | enter (callee : Callee)
  /-- Enter the callee in the frame of the caller. -/
  | reenter (callee : Callee)
  /-- Go back to the latest caller. -/
  | leave (caller : Frame)
  | stop
  deriving DecidableEq, Repr

namespace Machine

/-- Set a register of the current frame. -/
def writeReg (m : Machine) (r : UInt8) (value : Int64) : Effect :=
  .write (m.base + r.toNat) value

/-- A constant of the current module. -/
def constant (img : Image) (m : Machine) (index : Nat) : Except FaultKind UInt64 :=
  match img.constant m.module index with
  | some word => .ok word
  | none => .error (.invalidConstant index)

/-- The address that a constant means as a jump target: it counts from the start of the module,
and has to fit a word. -/
def jumpTarget (img : Image) (m : Machine) (index : Nat) : Except FaultKind Nat :=
  match m.constant img index with
  | .error e => .error e
  | .ok word =>
    let target := word.toNat + img.codeOffset m.module
    if target < UInt64.size then .ok target else .error (.invalidJumpTarget word)

/-- The callee at an index of the current module. Only a call to another module changes the module
in use. -/
def callee (img : Image) (m : Machine) (external : Bool) (index : Nat) :
    Except FaultKind Callee :=
  match img.function m.module index with
  | none => .error (.invalidFunction index)
  | some f => .ok ⟨f.address, if external then f.module else m.module, f.reservation⟩

/-- A call: there has to be room for one more frame and its window. -/
def planCall (img : Image) (limits : Limits) (m : Machine) (external : Bool) (index : Nat) :
    Except FaultKind Effect :=
  match m.callee img external index with
  | .error e => .error e
  | .ok callee =>
    if m.stack.size < limits.maxCallStack ∧
        m.base + m.reservation + minRegisters ≤ m.registers.size then
      .ok (.enter callee)
    else .error .stackOverflow

/-- A call in the frame of the caller. -/
def planTailCall (img : Image) (m : Machine) (external : Bool) (index : Nat) :
    Except FaultKind Effect :=
  match m.callee img external index with
  | .error e => .error e
  | .ok callee => .ok (.reenter callee)

/-- The quotient of two words, rounded toward zero. -/
def quotient (x y : Int64) : Except FaultKind Int64 :=
  if y = 0 then .error .divisionByZero
  else if x = Int64.minValue ∧ y = -1 then .error .arithmeticOverflow
  else .ok (x / y)

/-- A copy from register to register. -/
def planMove (m : Machine) (i : Instruction) : Except FaultKind Effect :=
  match i.moveMode? with
  | none => .error (.invalidMoveMode i.c)
  | some .frame => .ok (m.writeReg i.b (m.reg i.a))
  | some .toWindow => .ok (.write (m.window i.b) (m.reg i.a))
  | some .fromWindow => .ok (m.writeReg i.b (m.register (m.window i.a)))

/-- What an instruction does in the given state, or which fault it raises. -/
def plan (img : Image) (limits : Limits) (m : Machine) (op : Opcode) (i : Instruction) :
    Except FaultKind Effect :=
  match op with
  | .nop => .ok .proceed
  | .calli => m.planCall img limits false i.callIndex
  | .calle => m.planCall img limits true i.callIndex
  | .lcalli => m.planTailCall img false i.callIndex
  | .lcalle => m.planTailCall img true i.callIndex
  | .ret =>
    match m.stack.back? with
    | none => .error .returnWithEmptyStack
    | some caller => .ok (.leave caller)
  | .addi => .ok (m.writeReg i.c (m.reg i.a + m.reg i.b))
  | .subi => .ok (m.writeReg i.c (m.reg i.a - m.reg i.b))
  | .muli => .ok (m.writeReg i.c (m.reg i.a * m.reg i.b))
  | .divi =>
    match quotient (m.reg i.a) (m.reg i.b) with
    | .error e => .error e
    | .ok value => .ok (m.writeReg i.c value)
  | .gt => .ok (m.writeReg i.c (if m.reg i.b < m.reg i.a then 1 else 0))
  | .loadi =>
    match m.constant img i.constIndex with
    | .error e => .error e
    | .ok word => .ok (m.writeReg i.a word.toInt64)
  | .jmpc =>
    match m.jumpTarget img i.constIndex with
    | .error e => .error e
    | .ok target => .ok (if m.reg i.a = 0 then .jump target else .proceed)
  | .jmp =>
    match m.jumpTarget img i.constIndex with
    | .error e => .error e
    | .ok target => .ok (.jump target)
  | .mov => m.planMove i
  | .halt => .ok .stop

/-- Do what an instruction does, and count it. -/
def apply (m : Machine) : Effect → Machine
  | .proceed => { m with pc := m.pc + 1, steps := m.steps + 1 }
  | .write index value =>
    { m with
      registers := m.registers.setIfInBounds index value
      pc := m.pc + 1
      steps := m.steps + 1 }
  | .jump target => { m with pc := target, steps := m.steps + 1 }
  | .enter callee =>
    let peak := max m.peak (m.stack.size + 1)
    { m with
      stack := m.stack.push ⟨m.pc + 1, m.base, m.module, m.reservation⟩
      peak
      base := m.base + m.reservation
      pc := callee.address
      module := callee.module
      reservation := callee.reservation
      steps := m.steps + 1 }
  | .reenter callee =>
    { m with
      pc := callee.address
      module := callee.module
      reservation := callee.reservation
      steps := m.steps + 1 }
  | .leave caller =>
    { m with
      stack := m.stack.pop
      pc := caller.returnPc
      base := caller.base
      module := caller.module
      reservation := caller.reservation
      steps := m.steps + 1 }
  | .stop => { m with pc := m.pc + 1, status := .halted, steps := m.steps + 1 }

end Machine

/-- How a step ends. -/
inductive Flow where
  /-- The machine can go on. -/
  | next
  /-- The program has ended with a result. -/
  | done (result : Int64)
  | fault (cause : Fault)
  deriving DecidableEq, Repr

namespace Machine

/-- Stop on a fault at the current address. -/
def stopOn (m : Machine) (kind : FaultKind) (opcode : Option UInt8) : Machine × Flow :=
  ({ m with status := .faulted }, .fault ⟨kind, m.pc, opcode⟩)

/-- Execute a decoded instruction. -/
def execute (img : Image) (limits : Limits) (m : Machine) (op : Opcode) (i : Instruction) :
    Machine × Flow :=
  match m.plan img limits op i with
  | .error kind => { m with steps := m.steps + 1 }.stopOn kind (some i.opcode)
  | .ok .stop => (m.apply .stop, .done m.result)
  | .ok effect => (m.apply effect, .next)

/-- Execute one instruction. A machine that has halted gives its result again, and one that has
faulted stays as it is. -/
def step (img : Image) (limits : Limits) (m : Machine) : Machine × Flow :=
  match m.status with
  | .halted => (m, .done m.result)
  | .faulted => m.stopOn .notRunning none
  | .running =>
    if limits.maxSteps ≠ 0 ∧ limits.maxSteps ≤ m.steps then
      m.stopOn (.stepLimit limits.maxSteps) none
    else
      match img.code[m.pc]? with
      | none => m.stopOn .pcOutOfBounds none
      | some i =>
        match i.op? with
        | none => m.stopOn (.invalidOpcode i.opcode) (some i.opcode)
        | some op => m.execute img limits op i

/-- Execute at most `fuel` instructions, up to the end of the program or a fault. The outcome is
`none` when there is still more to execute. -/
def run (img : Image) (limits : Limits) : Nat → Machine → Machine × Option (Except Fault Int64)
  | 0, m => (m, none)
  | fuel + 1, m =>
    match m.step img limits with
    | (m, .next) => run img limits fuel m
    | (m, .done result) => (m, some (.ok result))
    | (m, .fault cause) => (m, some (.error cause))

/-- More instructions than any machine executes. -/
def ample : Nat := 1 <<< 62

end Machine

/-- Run an image from its start, with at most `fuel` instructions. -/
def Image.run (img : Image) (limits : Limits) (fuel : Nat) : Option (Except Fault Int64) :=
  ((Machine.start img limits).run img limits fuel).2

end RegLisp
