import RegLisp.Compile.Term

/-!
# Layout

Where the code of a program lies, worked out from its terms alone: how many instructions each term
takes, where each function starts, and which addresses go into the slots that jumps use. The entry
section comes first, and the functions follow in the order of the program.
-/

namespace RegLisp

/-- How many instructions bring a value from one register to another. -/
def moveSize (src dst : Nat) : Nat := if src = dst then 0 else 1

/-- How many instructions bring the value of a term to a register. A call that reuses the frame
does not come back, so its value is not moved. -/
def Term.settleSize (t : Term) (dst : Nat) : Nat :=
  if t.isTailCall then 0 else moveSize t.reg dst

mutual

/-- How many instructions a term takes. -/
def Term.size : Term → Nat
  | .const _ _ _ => 1
  | .var _ _ _ => 0
  | .binary _ _ _ lhs rhs => lhs.size + rhs.size + 1
  | .cond reg _ _ _ test onTrue onFalse =>
    test.size + 1 + (onTrue.size + onTrue.settleSize reg) + 1 +
      (onFalse.size + onFalse.settleSize reg)
  | .call reg _ tail _ _ args =>
    Term.argsSize (reg + 1) args + args.length + if tail then 1 else 2

/-- How many instructions bring arguments to consecutive registers from the given one on. -/
def Term.argsSize (slot : Nat) : List Term → Nat
  | [] => 0
  | arg :: args => arg.size + moveSize arg.reg slot + Term.argsSize (slot + 1) args

end

mutual

/-- The slots that a term at the given address fills with addresses. -/
def Term.targets (address : Nat) : Term → List (Nat × Nat)
  | .const _ _ _ => []
  | .var _ _ _ => []
  | .binary _ _ _ lhs rhs => lhs.targets address ++ rhs.targets (address + lhs.size)
  | .cond reg _ joinSlot elseSlot test onTrue onFalse =>
    let thenStart := address + test.size + 1
    let elseStart := thenStart + (onTrue.size + onTrue.settleSize reg) + 1
    let join := elseStart + (onFalse.size + onFalse.settleSize reg)
    test.targets address ++ onTrue.targets thenStart ++ (elseSlot, elseStart) ::
      (onFalse.targets elseStart ++ [(joinSlot, join)])
  | .call reg _ _ _ _ args => Term.argsTargets address (reg + 1) args

/-- The slots that arguments fill, when their code starts at the given address. -/
def Term.argsTargets (address slot : Nat) : List Term → List (Nat × Nat)
  | [] => []
  | arg :: args =>
    arg.targets address ++
      Term.argsTargets (address + (arg.size + moveSize arg.reg slot)) (slot + 1) args

end

/-- How many instructions an entry expression takes. -/
def Term.entrySize (t : Term) : Nat := t.size + moveSize t.reg 0

/-- How many instructions the body of a function takes. -/
def Term.bodySize (t : Term) : Nat := t.size + t.settleSize 0 + 1

/-- The addresses of a program: where its functions start, by index, what its slots hold, and how
many instructions it has. -/
structure Layout where
  starts : Array (Nat × Nat) := #[]
  targets : Array (Nat × Nat) := #[]
  size : Nat := 0
  deriving DecidableEq, Repr

namespace Layout

/-- Lay out an entry expression behind what is laid out already. -/
def addEntry (l : Layout) (t : Term) : Layout :=
  { l with targets := l.targets ++ t.targets l.size, size := l.size + t.entrySize }

/-- Lay out one instruction. -/
def addHalt (l : Layout) : Layout := { l with size := l.size + 1 }

/-- Lay out the body of a function. -/
def addBody (l : Layout) (index : Nat) (t : Term) : Layout :=
  { starts := l.starts.push (index, l.size)
    targets := l.targets ++ t.targets l.size
    size := l.size + t.bodySize }

/-- Lay out a program. -/
def ofItems (items : List Item) : Layout :=
  let entries := (entryTerms items).foldl addEntry {}
  (bodies items).foldl (fun l (index, t) => l.addBody index t) entries.addHalt

end Layout

end RegLisp
