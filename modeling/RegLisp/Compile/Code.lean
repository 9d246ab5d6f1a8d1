import RegLisp.Compile.Term
import RegLisp.Code.Instruction

/-!
# Code

The instructions of a program. A call copies its arguments into the window and takes its result
from there; a call that reuses the frame copies them down to the parameters instead. That copy
goes upwards and every source lies above its destination, so no argument is lost.
-/

namespace RegLisp

def BinaryOp.opcode : BinaryOp → Opcode
  | add => .addi
  | sub => .subi
  | mul => .muli
  | div => .divi
  | gt => .gt

/-- A `mov` between numbered registers. -/
def movCode (mode : MoveMode) (src dst : Nat) : Instruction :=
  .mov (.ofNat src) (.ofNat dst) mode

/-- Bring a value from one register of the frame to another. -/
def moveCode (src dst : Nat) : List Instruction :=
  if src = dst then [] else [movCode .frame src dst]

/-- Bring the value of a term to a register, unless the term does not come back. -/
def Term.settleCode (t : Term) (dst : Nat) : List Instruction :=
  if t.isTailCall then [] else moveCode t.reg dst

/-- Copy so many arguments from above register `reg` to the registers from one on. -/
def passCode (mode : MoveMode) (reg count : Nat) : List Instruction :=
  (List.range count).map fun i => movCode mode (reg + 1 + i) (1 + i)

/-- Call a function with so many arguments above register `reg`. -/
def callCode (external tail : Bool) (reg index count : Nat) : List Instruction :=
  let call := Instruction.call (.callFor external tail) (.ofNat index)
  if tail then passCode .frame reg count ++ [call]
  else passCode .toWindow reg count ++ [call, movCode .fromWindow 0 reg]

mutual

/-- The instructions of a term, given which functions other modules define. -/
def Term.code (external : Nat → Bool) : Term → List Instruction
  | .const reg slot _ => [.const .loadi (.ofNat reg) (.ofNat slot)]
  | .var _ _ _ => []
  | .binary reg _ op lhs rhs =>
    lhs.code external ++ rhs.code external ++
      [.ternary op.opcode (.ofNat lhs.reg) (.ofNat rhs.reg) (.ofNat reg)]
  | .cond reg _ joinSlot elseSlot test onTrue onFalse =>
    test.code external ++ .const .jmpc (.ofNat test.reg) (.ofNat elseSlot) ::
      (onTrue.code external ++ onTrue.settleCode reg) ++ .const .jmp 0 (.ofNat joinSlot) ::
      (onFalse.code external ++ onFalse.settleCode reg)
  | .call reg _ tail _ index args =>
    Term.argsCode external (reg + 1) args ++ callCode (external index) tail reg index args.length

/-- The instructions that bring arguments to consecutive registers from the given one on. -/
def Term.argsCode (external : Nat → Bool) (slot : Nat) : List Term → List Instruction
  | [] => []
  | arg :: args =>
    arg.code external ++ moveCode arg.reg slot ++ Term.argsCode external (slot + 1) args

end

/-- The instructions of an entry expression. -/
def Term.entryCode (external : Nat → Bool) (t : Term) : List Instruction :=
  t.code external ++ moveCode t.reg 0

/-- The instructions of the body of a function. -/
def Term.bodyCode (external : Nat → Bool) (t : Term) : List Instruction :=
  t.code external ++ t.settleCode 0 ++ [.nullary .ret]

/-- The instructions of a program: the entry section, and then each function. -/
def programCode (external : Nat → Bool) (items : List Item) : List Instruction :=
  (entryTerms items).flatMap (Term.entryCode external) ++ .nullary .halt ::
    (bodies items).flatMap fun (_, t) => t.bodyCode external

end RegLisp
