import RegLisp.Compile.Scope
import RegLisp.Compile.Tables
import RegLisp.Compile.Term

/-!
# Allocation

Expressions become terms: each gets a register, a type and its slots, and each function that is
named gets an entry in the function table.

* A literal, an operation or a call takes the next free register, and its operands lie above it.
* The test and both branches of a conditional start at the register of the conditional.
* Argument `i` of a call with register `r` starts at register `r + 1 + i`.

So a value that is still needed lies below the next free register.
-/

namespace RegLisp

/-- A step of allocation. -/
abbrev Allocate := StateT Tables (Except CompileError)

namespace Allocate

/-- An operation on the tables as a step. -/
def ofTables {α : Type} (f : Tables → Except CompileError α × Tables) : Allocate α := fun t =>
  match f t with
  | (.ok a, t) => .ok (a, t)
  | (.error e, _) => .error e

/-- Take the next free register. -/
def alloc : Allocate Nat := ofTables Tables.alloc

/-- Note the use of a register. -/
def touch (reg : Nat) : Allocate Nat := ofTables (·.touch reg)

/-- The next free register. -/
def nextReg : Allocate Nat := fun t => .ok (t.nextReg, t)

/-- Go on with the given register as the next free one. -/
def setNext (reg : Nat) : Allocate Unit := fun t => .ok ((), { t with nextReg := reg })

def addConstant (word : UInt64) : Allocate Nat := ofTables (·.addConstant word)

def insert (entry : FunctionEntry) : Allocate Nat := ofTables (·.insert entry)

def lookup (name : String) : Allocate (Option Nat) := fun t => .ok (t.lookup name, t)

/-- The entry at an index of the function table. -/
def entryAt (index : Nat) : Allocate FunctionEntry := fun t =>
  .ok (t.functions.getD index ⟨"", none, [], 0⟩, t)

def modify (index : Nat) (f : FunctionEntry → FunctionEntry) : Allocate Unit := fun t =>
  .ok ((), t.modify index f)

/-- Stop with an error unless a condition holds. -/
def require (condition : Bool) (e : CompileError) : Allocate Unit := fun t =>
  if condition then .ok ((), t) else .error e

/-- Stop with an error. -/
def fail {α : Type} (e : CompileError) : Allocate α := fun _ => .error e

end Allocate

open Allocate

/-- Check the types of arguments against an entry of the function table. -/
def checkParams (name : String) (entry : FunctionEntry) (types : List ValueType) : Allocate Unit :=
  require (typesAgree entry.params types) (.signatureMismatch name entry.params types)

/-- Check a whole signature against an entry of the function table. -/
def checkSignature (name : String) (entry : FunctionEntry) (returns : ValueType)
    (params : List ValueType) : Allocate Unit := do
  checkParams name entry params
  require (entry.returns.compatible returns)
    (.typeMismatch (.returnType name) entry.returns returns)

/-- The known types of the first list, and elsewhere those of the second. -/
def fillUnknown (types fillers : List ValueType) : List ValueType :=
  types.zipWith (fun type filler => if type.isKnown then type else filler) fillers

/-- An entry whose unknown parameter types are taken from a call. -/
def FunctionEntry.refine (f : FunctionEntry) (args : List ValueType) : FunctionEntry :=
  { f with types := f.types.take 1 ++ fillUnknown f.params args }

/-- The index of a callee and the type of its result. A function that is not known yet is taken to
be defined elsewhere, and calls make its unknown parameter types known. -/
def resolveCall (name : String) (args : List ValueType) : Allocate (Nat × ValueType) := do
  match ← lookup name with
  | none =>
    let index ← insert ⟨name, none, .unknown :: args, 0⟩
    return (index, .unknown)
  | some index =>
    let entry ← entryAt index
    checkParams name entry args
    if entry.isExternal then
      modify index (·.refine args)
    return (index, entry.returns)

mutual

/-- Allocate an expression. -/
def Expr.allocate (scope : Scope) : Expr → Allocate Term
  | .const _ value => do
    let reg ← alloc
    let slot ← addConstant value.toWord
    return .const reg slot value
  | .var _ type name =>
    match scope.lookup name with
    | none => fail (.undefinedVariable name)
    | some binding => do
      require (!type.isKnown || type == binding.type) (.conflictingType name binding.type type)
      return .var binding.reg binding.type name
  | .binary _ op lhs rhs => do
    let reg ← alloc
    let lhs ← lhs.allocate scope
    let rhs ← rhs.allocate scope
    return .binary reg (lhs.type.promote rhs.type) op lhs rhs
  | .cond _ test onTrue onFalse => do
    let result ← nextReg
    let joinSlot ← addConstant 0
    let elseSlot ← addConstant 0
    let test ← test.allocate scope
    require (ValueType.int.compatible test.type) (.typeMismatch .condition .int test.type)
    setNext result
    let onTrue ← onTrue.allocate scope
    setNext result
    let onFalse ← onFalse.allocate scope
    let reg ← touch result
    setNext (result + 1)
    return .cond reg (onTrue.type.promote onFalse.type) joinSlot elseSlot test onTrue onFalse
  | .call tail callee args => do
    let reg ← alloc
    let args ← Expr.allocateArgs scope (reg + 1) args
    setNext (reg + 1)
    let (index, type) ← resolveCall callee (args.map Term.type)
    return .call reg type tail callee index args

/-- Allocate arguments into consecutive registers from the given one on. -/
def Expr.allocateArgs (scope : Scope) (slot : Nat) : List Expr → Allocate (List Term)
  | [] => return []
  | arg :: args => do
    setNext slot
    let arg ← arg.allocate scope
    let _ ← touch slot
    let args ← Expr.allocateArgs scope (slot + 1) args
    return arg :: args

end

/-- Enter a definition in the function table. Calls and declarations may have named the function
before, and have to agree with it. -/
def Definition.register (d : Definition) : Allocate Nat := do
  match ← lookup d.name with
  | none => insert ⟨d.name, some 0, d.returns :: d.paramTypes, 0⟩
  | some index =>
    let entry ← entryAt index
    require entry.isExternal (.duplicateDefinition d.name)
    checkSignature d.name entry d.returns d.paramTypes
    modify index fun f =>
      { f with address := some 0, types := fillUnknown (d.returns :: d.paramTypes) f.types }
    return index

/-- Bind parameters to consecutive registers from the given one on. -/
def bindParams (scope : Scope) (reg : Nat) : List Param → Except CompileError Scope
  | [] => .ok scope
  | p :: ps =>
    match scope.declare p.name ⟨reg, p.type⟩ with
    | .error e => .error e
    | .ok scope => bindParams scope (reg + 1) ps

/-- The greatest number of parameters of a function. -/
def maxParams : Nat := 254

/-- Allocate a definition. Register zero takes the result and the next ones the parameters. The
result has the declared type, or else that of the body. -/
def Definition.allocate (d : Definition) : Allocate Item := do
  require (d.params.length ≤ maxParams) (.tooManyParameters d.name)
  let index ← d.register
  let scope ← (bindParams (Scope.mk []).push 1 d.params : Except CompileError Scope)
  MonadState.modifyGet fun t => ((), t.beginFrame d.name (d.params.length + 1))
  let body ← d.body.allocate scope
  let entry ← entryAt index
  require (entry.returns.compatible body.type)
    (.typeMismatch (.returnValue d.name) entry.returns body.type)
  MonadState.modifyGet fun t => ((), t.modify index fun f =>
    { f with
      reservation := t.reservation
      types := (if f.returns.isKnown then f.returns else body.type) :: f.params })
  return .body index body

/-- Allocate a declaration. -/
def Declaration.allocate (d : Declaration) : Allocate Unit := do
  require (d.params.length ≤ maxParams) (.tooManyParameters d.name)
  match ← lookup d.name with
  | none =>
    let _ ← insert ⟨d.name, none, d.returns :: d.params, 0⟩
    return
  | some index =>
    let entry ← entryAt index
    checkSignature d.name entry d.returns d.params
    modify index fun f => { f with types := fillUnknown f.types (d.returns :: d.params) }

/-- The entry section, as messages name it. -/
def entryFrame : String := "<entry>"

/-- Allocate an entry expression. Its value goes to register zero. -/
def Expr.allocateEntry (e : Expr) : Allocate Item := do
  MonadState.modifyGet fun t => ((), t.beginFrame entryFrame 0)
  let value ← e.allocate {}
  let _ ← touch 0
  MonadState.modifyGet fun t =>
    ((), { t with entryReservation := max t.entryReservation t.reservation })
  return .entry value

/-- Allocate globals in order, after the items already `done` (latest first). A declaration has
no code. -/
def allocateGlobals (done : List Item) : List Global → Allocate (List Item)
  | [] => return done.reverse
  | .define d :: globals => do
    let item ← d.allocate
    allocateGlobals (item :: done) globals
  | .declare d :: globals => do
    d.allocate
    allocateGlobals done globals
  | .entry e :: globals => do
    let item ← e.allocateEntry
    allocateGlobals (item :: done) globals

/-- Allocate a whole program, from empty tables. -/
def Program.allocate (p : Program) : Except CompileError (List Item × Tables) :=
  allocateGlobals [] p.globals {}

end RegLisp
