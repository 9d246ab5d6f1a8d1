import RegLisp.Compile.Code
import RegLisp.Module.Basic

/-!
# Generation

The code of a program is generated in two passes over the same terms. The first one is muted: it
writes nothing and only counts instructions, which gives each function its address and each jump
its target. The second one writes the instructions, and fills in the addresses once more.
-/

namespace RegLisp

/-- Whether another module defines the function at an index. -/
def isExternalAt (functions : Array FunctionEntry) (index : Nat) : Bool :=
  (functions[index]?.map FunctionEntry.isExternal).getD true

/-- A pass over a program. -/
structure Pass where
  functions : Array FunctionEntry
  constants : Array UInt64
  /-- The address of the next instruction. -/
  counter : Nat := 0
  /-- Whether instructions are counted only. -/
  muted : Bool := true
  written : Array Instruction := #[]
  deriving DecidableEq, Repr

namespace Pass

def emit (p : Pass) (i : Instruction) : Pass :=
  { p with
    counter := p.counter + 1
    written := if p.muted then p.written else p.written.push i }

def emitAll (p : Pass) (is : List Instruction) : Pass := is.foldl emit p

/-- Put the address of the next instruction into a slot of the constant pool. -/
def patch (p : Pass) (slot : Nat) : Pass :=
  { p with constants := p.constants.setIfInBounds slot (.ofNat p.counter) }

/-- Let the function at an index start at the next instruction. Whether it is defined here has been
settled before. -/
def place (p : Pass) (index : Nat) : Pass :=
  { p with
    functions := p.functions.modify index fun f =>
      { f with address := f.address.map fun _ => .ofNat p.counter } }

end Pass

mutual

/-- Generate the code of a term. -/
def Term.generate (p : Pass) : Term → Pass
  | .const reg slot _ => p.emit (.const .loadi (.ofNat reg) (.ofNat slot))
  | .var _ _ _ => p
  | .binary reg _ op lhs rhs =>
    (rhs.generate (lhs.generate p)).emit
      (.ternary op.opcode (.ofNat lhs.reg) (.ofNat rhs.reg) (.ofNat reg))
  | .cond reg _ joinSlot elseSlot test onTrue onFalse =>
    let p := (test.generate p).emit (.const .jmpc (.ofNat test.reg) (.ofNat elseSlot))
    let p := (onTrue.generate p).emitAll (onTrue.settleCode reg)
    let p := (p.emit (.const .jmp 0 (.ofNat joinSlot))).patch elseSlot
    let p := (onFalse.generate p).emitAll (onFalse.settleCode reg)
    p.patch joinSlot
  | .call reg _ tail _ index args =>
    let external := isExternalAt p.functions index
    (Term.generateArgs p (reg + 1) args).emitAll (callCode external tail reg index args.length)

/-- Generate the code that brings arguments to consecutive registers from the given one on. -/
def Term.generateArgs (p : Pass) (slot : Nat) : List Term → Pass
  | [] => p
  | arg :: args =>
    Term.generateArgs ((arg.generate p).emitAll (moveCode arg.reg slot)) (slot + 1) args

end

namespace Pass

/-- Generate the code of an entry expression. -/
def entry (p : Pass) (t : Term) : Pass := (t.generate p).emitAll (moveCode t.reg 0)

/-- Generate the code of the function at an index. -/
def body (p : Pass) (b : Nat × Term) : Pass :=
  ((b.2.generate (p.place b.1)).emitAll (b.2.settleCode 0)).emit (.nullary .ret)

/-- Generate the entry section of a program. -/
def entrySection (p : Pass) (items : List Item) : Pass :=
  ((entryTerms items).foldl entry p).emit (.nullary .halt)

/-- Generate the code of a program: the entry section, and then each function. -/
def run (p : Pass) (items : List Item) : Pass :=
  (bodies items).foldl body (p.entrySection items)

/-- Go back to the first instruction, and write from now on. -/
def rewind (p : Pass) : Pass := { p with counter := 0, muted := false }

end Pass

end RegLisp
