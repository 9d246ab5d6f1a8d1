import RegLisp.Proofs.FrameSizes
import RegLisp.Proofs.PoolIntegrity

/-!
# Numbers that fit

An instruction has a byte for a register, two for a slot of the constant pool and three for the
index of a function, and a module file has fields of its own for its lengths. Of a program that can
be allocated, every number fits its field. So compiling it with arithmetic that fails where a sum or
a cast would lose something gives what compiling it gives, and a program with a frame that would
need more registers than a byte can tell apart is never allocated.
-/

namespace RegLisp

open Allocate

/-! ## Casts that can fail -/

/-- A number in a narrower type, if it is below the bound of that type. -/
def narrow? {α : Type} (bound : Nat) (cast : Nat → α) (n : Nat) : Option α :=
  if n < bound then some (cast n) else none

def byte? : Nat → Option UInt8 := narrow? 256 .ofNat

def half? : Nat → Option UInt16 := narrow? 65536 .ofNat

def word? : Nat → Option UInt32 := narrow? 4294967296 .ofNat

/-- The index of a function, if it fits the three bytes of a call. -/
def callIndex? : Nat → Option UInt32 := narrow? maxFunctions .ofNat

/-- The sum of two bytes, if it is a byte. -/
def addBytes? (x y : UInt8) : Option UInt8 := byte? (x.toNat + y.toNat)

theorem narrow?_eq {α : Type} {bound n : Nat} (fits : n < bound) (cast : Nat → α) :
    narrow? bound cast n = some (cast n) := if_pos fits

section

variable {n k : Nat}

theorem byte?_eq (fits : n < 256) : byte? n = some (.ofNat n) := narrow?_eq fits _

theorem half?_eq (fits : n < 65536) : half? n = some (.ofNat n) := narrow?_eq fits _

theorem word?_eq (fits : n < 4294967296) : word? n = some (.ofNat n) := narrow?_eq fits _

theorem callIndex?_eq (fits : n < maxFunctions) : callIndex? n = some (.ofNat n) :=
  narrow?_eq fits _

theorem addBytes?_eq (fits : n + k < 256) :
    addBytes? (.ofNat n) (.ofNat k) = some (.ofNat (n + k)) := by
  rw [addBytes?, byte_toNat (show n < 256 by omega), byte_toNat (show k < 256 by omega),
    byte?_eq fits]

theorem byte_inj (hn : n < 256) (hk : k < 256) : UInt8.ofNat n = UInt8.ofNat k ↔ n = k := by
  constructor
  · intro same
    rw [← byte_toNat hn, ← byte_toNat hk, same]
  · exact congrArg _

end

theorem mapM_eq_some_map {α β : Type} {f : α → Option β} {g : α → β} {xs : List α}
    (h : ∀ x ∈ xs, f x = some (g x)) : xs.mapM f = some (xs.map g) := by
  induction xs with
  | nil => rfl
  | cons x xs ih =>
    rw [List.mapM_cons, h x List.mem_cons_self, ih fun x mem => h x (List.mem_cons_of_mem _ mem)]
    rfl

theorem foldlM_eq_some_foldl {α β : Type} {f : β → α → Option β} {g : β → α → β} {xs : List α}
    (h : ∀ x ∈ xs, ∀ b, f b x = some (g b x)) (b : β) :
    xs.foldlM f b = some (xs.foldl g b) := by
  induction xs generalizing b with
  | nil => rfl
  | cons x xs ih =>
    rw [List.foldlM_cons, h x List.mem_cons_self]
    exact ih (fun x mem => h x (List.mem_cons_of_mem _ mem)) (g b x)

/-! ## Parameters -/

/-- Bind parameters to registers that are bytes. Before these there are `i` others. -/
def bindParams? (scope : Scope) (i : Nat) : List Param → Option (Except CompileError Scope)
  | [] => some (.ok scope)
  | p :: ps => do
    let reg ← byte? (i + 1)
    match scope.declare p.name ⟨reg.toNat, p.type⟩ with
    | .error e => some (.error e)
    | .ok scope => bindParams? scope (i + 1) ps

theorem bindParams?_eq {scope : Scope} {i : Nat} {ps : List Param} (fits : i + ps.length < 256) :
    bindParams? scope i ps = some (bindParams scope (i + 1) ps) := by
  induction ps generalizing scope i with
  | nil => rfl
  | cons p ps ih =>
    rw [List.length_cons] at fits
    have reg_lt : i + 1 < 256 := by omega
    simp only [bindParams?, bindParams, byte?_eq reg_lt, Option.bind_eq_bind, Option.bind_some,
      byte_toNat reg_lt]
    cases scope.declare p.name ⟨i + 1, p.type⟩ with
    | error e => rfl
    | ok scope => exact ih (by omega)

/-! ## Code from bytes -/

/-- Bring a value from one register of the frame to another. -/
def moveBytes (src dst : UInt8) : List Instruction :=
  if src = dst then [] else [.mov src dst .frame]

/-- Bring the value of a term to a register, unless the term does not come back. -/
def Term.settle? (t : Term) (dst : UInt8) : Option (List Instruction) := do
  let src ← byte? t.reg
  return if t.isTailCall then [] else moveBytes src dst

/-- The register of argument `i` of a call with the given register. -/
def argReg? (result : UInt8) (i : Nat) : Option UInt8 := do
  addBytes? (← addBytes? result 1) (← byte? i)

/-- Copy so many arguments from above a register to the registers from one on. -/
def pass? (mode : MoveMode) (result count : UInt8) : Option (List Instruction) :=
  (List.range count.toNat).mapM fun i => do
    return .mov (← argReg? result i) (← addBytes? 1 (← byte? i)) mode

/-- Call a function with so many arguments above a register. -/
def call? (external tail : Bool) (result : UInt8) (index count : Nat) :
    Option (List Instruction) := do
  let count ← byte? count
  let call := Instruction.call (.callFor external tail) (← callIndex? index)
  if tail then return (← pass? .frame result count) ++ [call]
  else return (← pass? .toWindow result count) ++ [call, .mov 0 result .fromWindow]

mutual

/-- Generate the code of a term. -/
def Term.generate? (p : Pass) : Term → Option Pass
  | .const reg slot _ => do return p.emit (.const .loadi (← byte? reg) (← half? slot))
  | .var reg _ _ => do
    let _ ← byte? reg
    return p
  | .binary reg _ op lhs rhs => do
    let p ← lhs.generate? p
    let p ← rhs.generate? p
    return p.emit (.ternary op.opcode (← byte? lhs.reg) (← byte? rhs.reg) (← byte? reg))
  | .cond reg _ joinSlot elseSlot test onTrue onFalse => do
    let result ← byte? reg
    let join ← half? joinSlot
    let other ← half? elseSlot
    let p ← test.generate? p
    let p ← onTrue.generate? (p.emit (.const .jmpc (← byte? test.reg) other))
    let p := (p.emitAll (← onTrue.settle? result)).emit (.const .jmp 0 join)
    let p ← onFalse.generate? (p.patch other.toNat)
    return (p.emitAll (← onFalse.settle? result)).patch join.toNat
  | .call reg _ tail _ index args => do
    let result ← byte? reg
    let external := isExternalAt p.functions index
    let p ← Term.generateArgs? p result 0 args
    return p.emitAll (← call? external tail result index args.length)

/-- Generate the code that brings arguments to their registers, from argument `i` on. -/
def Term.generateArgs? (p : Pass) (result : UInt8) (i : Nat) : List Term → Option Pass
  | [] => some p
  | arg :: args => do
    let p ← arg.generate? p
    let p := p.emitAll (moveBytes (← byte? arg.reg) (← argReg? result i))
    Term.generateArgs? p result (i + 1) args

end

namespace Pass

def entryPart? (p : Pass) (t : Term) : Option Pass := do
  let p ← t.generate? p
  return p.emitAll (moveBytes (← byte? t.reg) 0)

def bodyPart? (p : Pass) (b : Nat × Term) : Option Pass := do
  let p ← b.2.generate? (p.place b.1)
  return (p.emitAll (← b.2.settle? 0)).emit (.nullary .ret)

/-- Generate the code of a program. -/
def run? (p : Pass) (items : List Item) : Option Pass := do
  let p ← (entryTerms items).foldlM entryPart? p
  (bodies items).foldlM bodyPart? (p.emit (.nullary .halt))

end Pass

/-! ## Terms that fit -/

mutual

/-- All numbers of the term fit into instructions. -/
def Term.Fits : Term → Prop
  | .const reg slot _ => reg ≤ 255 ∧ slot ≤ 65535
  | .var reg _ _ => reg ≤ 255
  | .binary reg _ _ lhs rhs => reg ≤ 255 ∧ lhs.Fits ∧ rhs.Fits
  | .cond reg _ joinSlot elseSlot test onTrue onFalse =>
    reg ≤ 255 ∧ joinSlot ≤ 65535 ∧ elseSlot ≤ 65535 ∧ test.Fits ∧ onTrue.Fits ∧ onFalse.Fits
  | .call reg _ _ _ index args =>
    reg ≤ 255 ∧ (∀ i < args.length, reg + 1 + i ≤ 255) ∧ args.length ≤ 255 ∧
      index ≤ maxCallIndex ∧ Term.ArgsFit args

def Term.ArgsFit : List Term → Prop
  | [] => True
  | arg :: args => arg.Fits ∧ Term.ArgsFit args

end

theorem Term.Fits.reg_lt {t : Term} (h : t.Fits) : t.reg < 256 := by
  cases t with
  | const => exact Nat.lt_succ_of_le h.1
  | var => exact Nat.lt_succ_of_le h
  | binary => exact Nat.lt_succ_of_le h.1
  | cond => exact Nat.lt_succ_of_le h.1
  | call => exact Nat.lt_succ_of_le h.1

section

variable {scope : Scope} {t : Tables}

mutual

/-- A term that is placed in tables that a module can hold fits. -/
theorem Placed.fits (valid : t.Valid) : ∀ {e : Expr} {term : Term} {reg : Nat},
    Placed scope t reg e term → reg ≤ 256 → (∀ slot ∈ term.slots, slot < t.constants.size) →
      term.Fits
  | .const _ _, _, _, .const room _, _, slots => by
    have := slots _ List.mem_cons_self
    have := valid.constants_le
    exact ⟨Nat.le_of_lt_succ room, by omega⟩
  | .var _ _ _, _, _, .var _ below, le, _ => Nat.le_of_lt_succ (Nat.lt_of_lt_of_le below le)
  | .binary _ _ lhs _, _, reg, .binary room left right, _, slots => by
    have width := left.add_width_le_of_le room
    rw [Term.slots, List.forall_mem_append] at slots
    exact ⟨Nat.le_of_lt_succ room, left.fits valid room slots.1, right.fits valid width slots.2⟩
  | .cond _ _ _ _, _, _, .cond room tested yes no, le, slots => by
    have := valid.constants_le
    simp only [Term.slots, List.forall_mem_cons, List.forall_mem_append] at slots
    obtain ⟨join, other, ⟨test, onTrue⟩, onFalse⟩ := slots
    exact ⟨Nat.le_of_lt_succ room, by omega, by omega, tested.fits valid le test,
      yes.fits valid le onTrue, no.fits valid le onFalse⟩
  | .call _ _ _, .call _ _ _ _ _ args', reg, .call room passed entered _ _, _, slots => by
    have reach : Term.argsReach (reg + 1) args' ≤ 256 := passed.reach_le
    have length := passed.add_length_le
    have room' : reg < 256 := room
    have inside := (Array.getElem?_eq_some_iff.1 entered).1
    have functions_le := valid.functions_le
    refine ⟨Nat.le_of_lt_succ room, ?_, by omega, ?_, passed.fits valid room slots⟩
    · intro i lt
      omega
    · exact Nat.le_of_lt_succ (Nat.lt_of_lt_of_le inside functions_le)

theorem PlacedArgs.fits (valid : t.Valid) : ∀ {args : List Expr} {terms : List Term} {slot : Nat},
    PlacedArgs scope t slot args terms → slot ≤ 256 →
      (∀ slot ∈ Term.argsSlots terms, slot < t.constants.size) → Term.ArgsFit terms
  | [], _, _, .nil, _, _ => trivial
  | _ :: _, _, _, .cons room first others, le, slots => by
    rw [Term.argsSlots, List.forall_mem_append] at slots
    exact ⟨first.fits valid le slots.1, others.fits valid room slots.2⟩

end

end

/-! ## Code of terms that fit -/

section

variable {reg i : Nat}

theorem moveBytes_eq {src dst : Nat} (hsrc : src < 256) (hdst : dst < 256) :
    moveBytes (.ofNat src) (.ofNat dst) = moveCode src dst := by
  simp only [moveBytes, moveCode, byte_inj hsrc hdst]
  rfl

theorem Term.settle?_eq {t : Term} {dst : Nat} (hsrc : t.reg < 256) (hdst : dst < 256) :
    t.settle? (.ofNat dst) = some (t.settleCode dst) := by
  simp only [settle?, settleCode, byte?_eq hsrc, moveBytes_eq hsrc hdst, Option.bind_eq_bind,
    Option.bind_some, Option.pure_def]

theorem argReg?_eq (fits : reg + 1 + i < 256) :
    argReg? (.ofNat reg) i = some (.ofNat (reg + 1 + i)) := by
  have first : addBytes? (.ofNat reg) 1 = some (.ofNat (reg + 1)) :=
    addBytes?_eq (k := 1) (by omega)
  simp only [argReg?, first, byte?_eq (show i < 256 by omega), addBytes?_eq fits,
    Option.bind_eq_bind, Option.bind_some]

theorem pass?_eq {count : Nat} (mode : MoveMode) (fits : reg + 1 + count ≤ 256) :
    pass? mode (.ofNat reg) (.ofNat count) = some (passCode mode reg count) := by
  rw [pass?, byte_toNat (by omega)]
  refine mapM_eq_some_map ?_
  intro i mem
  have lt : i < count := List.mem_range.1 mem
  have dst : addBytes? 1 (.ofNat i) = some (.ofNat (1 + i)) := addBytes?_eq (n := 1) (by omega)
  simp only [argReg?_eq (show reg + 1 + i < 256 by omega), byte?_eq (show i < 256 by omega), dst,
    Option.bind_eq_bind, Option.bind_some, Option.pure_def]
  rfl

theorem call?_eq {index count : Nat} (external tail : Bool) (fits : reg + 1 + count ≤ 256)
    (indexed : index ≤ maxCallIndex) :
    call? external tail (.ofNat reg) index count =
      some (callCode external tail reg index count) := by
  have index_lt : index < maxFunctions := Nat.lt_succ_of_le indexed
  simp only [call?, callCode, byte?_eq (show count < 256 by omega), callIndex?_eq index_lt,
    pass?_eq _ fits, Option.bind_eq_bind, Option.bind_some, Option.pure_def]
  cases tail <;> rfl

end

mutual

/-- No sum and no cast fails in the code of a term that fits. -/
theorem Term.generate?_eq : ∀ (t : Term) (p : Pass), t.Fits → t.generate? p = some (t.generate p)
  | .const reg slot _, p, ⟨hr, hs⟩ => by
    simp only [Term.generate?, Term.generate, byte?_eq (Nat.lt_succ_of_le hr),
      half?_eq (Nat.lt_succ_of_le hs), Option.bind_eq_bind, Option.bind_some, Option.pure_def]
  | .var reg _ _, p, hr => by
    simp only [Term.generate?, Term.generate, byte?_eq (Nat.lt_succ_of_le hr),
      Option.bind_eq_bind, Option.bind_some, Option.pure_def]
  | .binary reg _ op lhs rhs, p, ⟨hr, left, right⟩ => by
    simp only [Term.generate?, Term.generate, lhs.generate?_eq _ left, rhs.generate?_eq _ right,
      byte?_eq left.reg_lt, byte?_eq right.reg_lt, byte?_eq (Nat.lt_succ_of_le hr),
      Option.bind_eq_bind, Option.bind_some, Option.pure_def]
  | .cond reg _ joinSlot elseSlot test onTrue onFalse, p, ⟨hr, hj, he, tested, yes, no⟩ => by
    have result := Nat.lt_succ_of_le hr
    have join : joinSlot < UInt16.size := Nat.lt_succ_of_le hj
    have other : elseSlot < UInt16.size := Nat.lt_succ_of_le he
    simp only [Term.generate?, Term.generate, byte?_eq result, half?_eq join, half?_eq other,
      test.generate?_eq _ tested, byte?_eq tested.reg_lt, onTrue.generate?_eq _ yes,
      Term.settle?_eq yes.reg_lt result, onFalse.generate?_eq _ no,
      Term.settle?_eq no.reg_lt result, UInt16.toNat_ofNat_of_lt' join,
      UInt16.toNat_ofNat_of_lt' other, Option.bind_eq_bind, Option.bind_some, Option.pure_def]
  | .call reg _ tail _ index args, p, ⟨hr, slots, _, indexed, passed⟩ => by
    have fits : reg + 1 + args.length ≤ 256 := by
      by_contra beyond
      have := slots (args.length - 1)
      omega
    simp only [Term.generate?, Term.generate, byte?_eq (Nat.lt_succ_of_le hr),
      Term.generateArgs?_eq args p reg 0 passed fits, call?_eq _ _ fits indexed,
      Option.bind_eq_bind, Option.bind_some, Option.pure_def, Nat.add_zero]

theorem Term.generateArgs?_eq : ∀ (args : List Term) (p : Pass) (reg i : Nat), Term.ArgsFit args →
    reg + 1 + i + args.length ≤ 256 →
      Term.generateArgs? p (.ofNat reg) i args = some (Term.generateArgs p (reg + 1 + i) args)
  | [], _, _, _, _, _ => rfl
  | arg :: args, p, reg, i, ⟨first, others⟩, fits => by
    rw [List.length_cons] at fits
    have slot : reg + 1 + i < 256 := by omega
    simp only [Term.generateArgs?, Term.generateArgs, arg.generate?_eq _ first,
      byte?_eq first.reg_lt, argReg?_eq slot, moveBytes_eq first.reg_lt slot,
      Term.generateArgs?_eq args _ reg (i + 1) others (by omega), Option.bind_eq_bind,
      Option.bind_some]
    rfl

end

/-- No sum and no cast fails in a pass over items that fit. -/
theorem Pass.run?_eq {items : List Item} (fits : ∀ item ∈ items, item.term.Fits) (p : Pass) :
    p.run? items = some (p.run items) := by
  have entries : ∀ t ∈ entryTerms items, ∀ p : Pass, p.entryPart? t = some (p.entry t) := by
    intro t mem p
    obtain ⟨item, inside, found⟩ := List.mem_filterMap.1 mem
    cases item with
    | body => cases found
    | entry value =>
      cases found
      have value : t.Fits := fits _ inside
      have moved : moveBytes (.ofNat t.reg) 0 = moveCode t.reg 0 :=
        moveBytes_eq value.reg_lt (by decide)
      simp only [entryPart?, entry, t.generate?_eq p value, byte?_eq value.reg_lt, moved,
        Option.bind_eq_bind, Option.bind_some, Option.pure_def]
  have bodies : ∀ b ∈ bodies items, ∀ p : Pass, p.bodyPart? b = some (p.body b) := by
    intro b mem p
    obtain ⟨item, inside, found⟩ := List.mem_filterMap.1 mem
    cases item with
    | entry => cases found
    | body index term =>
      cases found
      have value : term.Fits := fits _ inside
      have settled : term.settle? 0 = some (term.settleCode 0) :=
        Term.settle?_eq value.reg_lt (by decide)
      simp only [bodyPart?, body, term.generate?_eq _ value, settled, Option.bind_eq_bind,
        Option.bind_some, Option.pure_def]
  rw [run?, foldlM_eq_some_foldl entries]
  exact foldlM_eq_some_foldl bodies _

/-! ## Files -/

/-- The header of a module file. The number of instructions has all the room it needs. -/
def encodeHeader? (constants functions instructions : Nat) : Option (List UInt8) := do
  let constants ← half? constants
  let functions ← word? functions
  return magic ++ littleEndian 2 constants.toNat ++ littleEndian 4 functions.toNat ++
    littleEndian 8 instructions

def FunctionEntry.encode? (f : FunctionEntry) : Option (List UInt8) := do
  let name := textBytes f.name
  return (← byte? name.length) :: (← byte? f.types.length) ::
    (littleEndian 8 f.storedAddress.toNat ++ name ++ f.types.map ValueType.toByte)

/-- Write the file of allocated globals. -/
def CompiledUnit.generate? (name : String) (items : List Item) (tables : Tables) :
    Option CompiledUnit := do
  let forward ← Pass.run? { functions := tables.functions, constants := tables.constants } items
  let header ← encodeHeader? forward.constants.size forward.functions.size forward.counter
  let functions ← forward.functions.toList.mapM FunctionEntry.encode?
  let emitting ← forward.rewind.run? items
  return {
    name
    bytes := header ++ functions.flatten ++ encodeConstants forward.constants.toList ++
      encodeCode emitting.written.toList
    functions := emitting.functions
    constants := emitting.constants
    entryReservation := tables.entryReservation }

theorem encodeHeader?_eq {constants functions : Nat} (hc : constants < UInt16.size)
    (hf : functions < UInt32.size) (instructions : Nat) :
    encodeHeader? constants functions instructions =
      some (encodeHeader constants functions instructions) := by
  simp only [encodeHeader?, encodeHeader, half?_eq hc, word?_eq hf,
    UInt16.toNat_ofNat_of_lt' hc, UInt32.toNat_ofNat_of_lt' hf, Option.bind_eq_bind,
    Option.bind_some, Option.pure_def]

theorem FunctionEntry.Short.encode?_eq {f : FunctionEntry} (h : f.Short) :
    f.encode? = some f.encode := by
  simp only [FunctionEntry.encode?, FunctionEntry.encode,
    byte?_eq (Nat.lt_succ_of_le h.name_le), byte?_eq (Nat.lt_succ_of_le h.types_le),
    Option.bind_eq_bind, Option.bind_some, Option.pure_def]
  rfl

theorem AllocatedGlobals.generate?_eq {globals : List Global} {items : List Item} {t : Tables}
    (h : AllocatedGlobals {} globals items t) (fits : ∀ item ∈ items, item.term.Fits)
    (name : String) :
    CompiledUnit.generate? name items t = some (CompiledUnit.generate name items t) := by
  have storable := h.storable
  have forward := h.forwardPass_eq
  have counted : Pass.run? { functions := t.functions, constants := t.constants } items =
      some (t.forwardPass items) := Pass.run?_eq fits _
  have header : encodeHeader? (t.forwardPass items).constants.size
      (t.forwardPass items).functions.size (t.forwardPass items).counter = some (encodeHeader
        (t.forwardPass items).constants.size (t.forwardPass items).functions.size
        (t.forwardPass items).counter) := by
    rw [forward]
    exact encodeHeader?_eq (by simpa using storable.constants_lt)
      (by simpa using storable.functions_lt) _
  have functions : (t.forwardPass items).functions.toList.mapM FunctionEntry.encode? =
      some ((t.forwardPass items).functions.toList.map FunctionEntry.encode) := by
    rw [forward]
    exact mapM_eq_some_map fun f mem => (storable.short f mem).encode?_eq
  rw [CompiledUnit.generate?, counted]
  simp only [CompiledUnit.generate, header, functions, Pass.run?_eq fits, encodeFunctions,
    List.flatMap, Option.bind_eq_bind, Option.bind_some, Option.pure_def]

/-! ## Frames -/

mutual

/-- One more than the greatest register that an expression at a register needs. A literal, an
operation and a call take the next free one and have their operands above it. The parts of a
conditional share its register, and arguments have consecutive ones. -/
def Expr.need (reg : Nat) : Expr → Nat
  | .const _ _ => reg + 1
  | .var _ _ _ => 0
  | .binary _ _ lhs rhs =>
    max (reg + 1) (max (lhs.need (reg + 1)) (rhs.need (reg + 1 + lhs.width)))
  | .cond _ test onTrue onFalse =>
    max (max (test.need reg) (max (onTrue.need reg) (onFalse.need reg))) (reg + 1)
  | .call _ _ args => max (reg + 1) (Expr.argsNeed (reg + 1) args)

def Expr.argsNeed (slot : Nat) : List Expr → Nat
  | [] => 0
  | arg :: args => max (max (arg.need slot) (slot + 1)) (Expr.argsNeed (slot + 1) args)

end

/-- The size of the frame that a definition needs: room for its result, its parameters and its
body. -/
def Definition.need (d : Definition) : Nat :=
  max (d.params.length + 1) (d.body.need (d.params.length + 1))

/-- The size of the frame that an entry expression needs. -/
def Expr.entryNeed (e : Expr) : Nat := max (e.need 0) 1

section

variable {scope : Scope} {t : Tables}

mutual

theorem Placed.reach_eq : ∀ {e : Expr} {term : Term} {reg : Nat},
    Placed scope t reg e term → term.reach = e.need reg
  | .const _ _, _, _, .const _ _ => rfl
  | .var _ _ _, _, _, .var _ _ => rfl
  | .binary _ _ _ _, _, _, .binary _ left right => by
    rw [Term.reach, Expr.need, left.reach_eq, right.reach_eq]
  | .cond _ _ _ _, _, _, .cond _ tested yes no => by
    rw [Term.reach, Expr.need, tested.reach_eq, yes.reach_eq, no.reach_eq]
  | .call _ _ _, _, _, .call _ passed _ _ _ => by
    rw [Term.reach, Expr.need, passed.reach_eq]

theorem PlacedArgs.reach_eq : ∀ {args : List Expr} {terms : List Term} {slot : Nat},
    PlacedArgs scope t slot args terms → Term.argsReach slot terms = Expr.argsNeed slot args
  | [], _, _, .nil => rfl
  | _ :: _, _, _, .cons _ first others => by
    rw [Term.argsReach, Expr.argsNeed, first.reach_eq, others.reach_eq]

end

theorem Placed.need_le {e : Expr} {term : Term} {reg : Nat} (h : Placed scope t reg e term) :
    e.need reg ≤ 256 := by
  rw [← h.reach_eq]
  exact h.reach_le

theorem PlacedBody.need_le {d : Definition} {body : Nat × Term} (h : PlacedBody t d body) :
    d.need ≤ 256 := by
  obtain ⟨scope, -, placed⟩ := h.placed
  have params_le : d.params.length ≤ 254 := h.params_le
  have := placed.need_le
  unfold Definition.need
  omega

theorem Placed.entryNeed_le {e : Expr} {term : Term} (h : Placed {} t 0 e term) :
    e.entryNeed ≤ 256 := by
  have := h.need_le
  unfold Expr.entryNeed
  omega

/-- The frame that is noted for a definition is the one that it needs, not its size modulo
something. -/
theorem ReservedBody.reservation_eq {d : Definition} {body : Nat × Term}
    (h : ReservedBody t.functions d body) (placed : PlacedBody t d body) :
    ∃ f, t.functions[body.1]? = some f ∧ f.reservation = d.need := by
  obtain ⟨f, hf, -, noted⟩ := h
  refine ⟨f, hf, ?_⟩
  have need_le := placed.need_le
  obtain ⟨scope, -, body_placed⟩ := placed.placed
  rw [noted, body_placed.reach_eq]
  exact Nat.mod_eq_of_lt (Nat.lt_of_le_of_lt need_le (by decide))

theorem entriesReach_eq {es : List Expr} {ts : List Term}
    (placed : List.Forall₂ (Placed {} t 0) es ts) :
    entriesReach ts = (es.map Expr.entryNeed).foldr max 0 := by
  induction placed with
  | nil => rfl
  | @cons e term es ts first others ih =>
    have small : e.entryNeed < 65536 := Nat.lt_of_le_of_lt first.entryNeed_le (by decide)
    rw [entriesReach, ih, first.reach_eq, ← Expr.entryNeed, Nat.mod_eq_of_lt small]
    rfl

end

/-- No frame is greater than an instruction can reach. -/
def SmallFrames (fs : Array FunctionEntry) : Prop :=
  ∀ (i : Nat) (f : FunctionEntry), fs[i]? = some f → f.reservation ≤ 256

theorem Event.Adds.reservation_eq {e : Event} {size : Nat} {f : FunctionEntry}
    (h : e.Adds size f) : f.reservation = 0 := by
  cases e with
  | enter global =>
    cases global with
    | define d | declare d =>
      obtain rfl := h
      rfl
    | entry body => exact h.elim
  | call site =>
    obtain ⟨-, rfl⟩ := h
    rfl
  | finish index type => exact h.elim

theorem Event.Changes.reservation_eq {e : Event} {index : Nat} {f g : FunctionEntry}
    (h : e.Changes index f g) (ongoing : e.Ongoing) : g.reservation = f.reservation := by
  cases e with
  | enter global =>
    cases global with
    | define d =>
      obtain ⟨-, -, -, rfl⟩ := h
      rfl
    | declare d =>
      obtain ⟨-, -, rfl⟩ := h
      rfl
    | entry body => exact h.elim
  | call site =>
    obtain ⟨-, -, -, rfl⟩ := h
    split <;> rfl
  | finish index' type => exact ongoing.elim

/-- Only the end of a body notes the size of a frame. -/
theorem Edited.smallFrames {fs fs' : Array FunctionEntry} {e : Event} (h : Edited fs e fs')
    (ongoing : e.Ongoing) (small : SmallFrames fs) : SmallFrames fs' := by
  intro i k hk
  cases h with
  | spare => exact small i k hk
  | add absent adds =>
    rcases getElem?_push_eq_some.1 hk with before | ⟨-, rfl⟩
    · exact small i k before
    · rw [adds.reservation_eq]
      exact Nat.zero_le _
  | change entry_eq changes =>
    rcases (getElem?_set_eq_some entry_eq).1 hk with ⟨-, other⟩ | ⟨-, rfl⟩
    · exact small i k other
    · rw [changes.reservation_eq ongoing]
      exact small _ _ entry_eq

theorem Happens.smallFrames {fs fs' : Array FunctionEntry} {es : List Event}
    (h : Happens fs es fs') (ongoing : ∀ e ∈ es, e.Ongoing) (small : SmallFrames fs) :
    SmallFrames fs' := by
  induction h with
  | nil => exact small
  | snoc before last ih =>
    rw [List.forall_mem_append] at ongoing
    exact last.smallFrames (ongoing.2 _ List.mem_cons_self) (ih ongoing.1)

theorem Expr.allocate_smallFrames {scope : Scope} {e : Expr} {t t' : Tables} {term : Term}
    (inStep : t.InStep) (h : e.allocate scope t = .ok (term, t'))
    (small : SmallFrames t.functions) : SmallFrames t'.functions := by
  obtain ⟨es, happens, ongoing⟩ := Expr.allocate_happens inStep h
  exact happens.smallFrames ongoing small

theorem Definition.allocate_smallFrames {d : Definition} {t t' : Tables} {item : Item}
    (valid : t.Valid) (h : d.allocate t = .ok (item, t')) (small : SmallFrames t.functions) :
    SmallFrames t'.functions := by
  obtain ⟨index, term, rfl, -, -, placed⟩ := Definition.allocate_spec valid h
  obtain ⟨_, _, same, -, -, reserved⟩ := Definition.allocate_reserves valid h
  cases same
  obtain ⟨f, hf, need⟩ := reserved.reservation_eq placed
  simp only [Definition.allocate, bind_eq_ok, pure_eq_ok] at h
  obtain ⟨u₁, t₁, h₁, index', t₂, h₂, scope, t₃, h₃, u₄, t₄, h₄, term', t₅, h₅, entry, t₆, h₆,
    u₇, t₇, h₇, u₈, t₈, h₈, heq⟩ := h
  cases heq
  obtain ⟨-, rfl⟩ := require_eq_ok.1 h₁
  have records := Definition.register_records valid.inStep h₂
  have small₂ := records.edited.smallFrames trivial small
  obtain ⟨-, rfl⟩ := liftM_eq_ok.1 h₃
  cases modifyGet_eq_ok.1 h₄
  have small₅ := Expr.allocate_smallFrames (records.inStep.beginFrame _ _) h₅ small₂
  cases h₆
  obtain ⟨-, rfl⟩ := require_eq_ok.1 h₇
  cases modifyGet_eq_ok.1 h₈
  intro i g hg
  by_cases own : index = i
  · subst own
    obtain rfl : f = g := Option.some.inj (hf.symm.trans hg)
    rw [need]
    exact placed.need_le
  · rw [Tables.modify, Array.getElem?_modify, if_neg own] at hg
    exact small₅ i g hg

theorem Expr.allocateEntry_smallFrames {e : Expr} {t t' : Tables} {item : Item}
    (inStep : t.InStep) (h : e.allocateEntry t = .ok (item, t')) (small : SmallFrames t.functions) :
    SmallFrames t'.functions := by
  simp only [Expr.allocateEntry, bind_eq_ok, pure_eq_ok] at h
  obtain ⟨u₁, t₁, h₁, term, t₂, h₂, reg, t₃, h₃, u₄, t₄, h₄, heq⟩ := h
  cases heq
  cases modifyGet_eq_ok.1 h₁
  have small₂ := Expr.allocate_smallFrames (inStep.beginFrame _ _) h₂ small
  obtain ⟨-, -, moves⟩ := touch_moves h₃
  cases modifyGet_eq_ok.1 h₄
  rw [← moves.functions_eq] at small₂
  exact small₂

theorem allocateGlobals_smallFrames {globals : List Global} {t t' : Tables}
    {done items : List Item} (valid : t.Valid)
    (h : allocateGlobals done globals t = .ok (items, t')) (small : SmallFrames t.functions) :
    SmallFrames t'.functions := by
  induction globals generalizing t done with
  | nil =>
    simp only [allocateGlobals, pure_eq_ok] at h
    cases h
    exact small
  | cons global globals ih =>
    cases global with
    | define d =>
      simp only [allocateGlobals, bind_eq_ok] at h
      obtain ⟨item, t₁, h₁, h⟩ := h
      obtain ⟨_, _, -, grows, -⟩ := Definition.allocate_spec valid h₁
      exact ih grows.valid h (Definition.allocate_smallFrames valid h₁ small)
    | declare d =>
      simp only [allocateGlobals, bind_eq_ok] at h
      obtain ⟨u, t₁, h₁, h⟩ := h
      have edited := (Declaration.allocate_records valid.inStep h₁).edited
      exact ih (Declaration.allocate_grows valid h₁).valid h (edited.smallFrames trivial small)
    | entry e =>
      simp only [allocateGlobals, bind_eq_ok] at h
      obtain ⟨item, t₁, h₁, h⟩ := h
      obtain ⟨_, -, grows, -⟩ := Expr.allocateEntry_spec valid h₁
      exact ih grows.valid h (Expr.allocateEntry_smallFrames valid.inStep h₁ small)

/-! ## Programs -/

/-- All numbers of an allocated program fit, and none is cut to make it fit. -/
structure Program.Exact (p : Program) (items : List Item) (t : Tables) : Prop where
  /-- Parameters have registers that are bytes. -/
  params : ∀ d ∈ p.definitions, d.params.length ≤ 254 ∧
    bindParams? (Scope.mk []).push 0 d.params = some (bindParams (Scope.mk []).push 1 d.params)
  terms : ∀ item ∈ items, item.term.Fits
  /-- The frame that is noted for a definition or for the entry section is the one that is needed,
  and it has no more registers than a byte can tell apart. -/
  frames : List.Forall₂ (fun d body => ∃ f, t.functions[body.1]? = some f ∧ f.reservation = d.need)
    p.definitions (bodies items)
  entry : t.entryReservation = (p.entries.map Expr.entryNeed).foldr max 0
  frames_le : ∀ f ∈ t.functions, f.reservation ≤ 256
  entry_le : t.entryReservation ≤ 256
  needs_le : (∀ d ∈ p.definitions, d.need ≤ 256) ∧ ∀ e ∈ p.entries, e.entryNeed ≤ 256
  constants_le : t.constants.size ≤ 65535
  functions_le : t.functions.size ≤ maxCallIndex + 1
  entries : ∀ f ∈ t.functions, f.name.utf8ByteSize ≤ 255 ∧ f.types.length ≤ 255
  /-- Where a sum or a cast that loses something fails, generation does not. -/
  generated : ∀ name, CompiledUnit.generate? name items t = some (.generate name items t)

/-- What comes of the left items of a correspondence holds of all of them. -/
theorem forall_mem_of_forall₂ {α β : Type} {r : α → β → Prop} {q : α → Prop} {xs : List α}
    {ys : List β} (h : List.Forall₂ r xs ys) (imp : ∀ x y, r x y → q x) : ∀ x ∈ xs, q x := by
  induction h with
  | nil => exact List.forall_mem_nil _
  | cons first _ ih => exact List.forall_mem_cons.2 ⟨imp _ _ first, ih⟩

theorem forall₂_and {α β : Type} {r s : α → β → Prop} {xs : List α} {ys : List β}
    (h : List.Forall₂ r xs ys) (h' : List.Forall₂ s xs ys) :
    List.Forall₂ (fun x y => r x y ∧ s x y) xs ys := by
  induction h with
  | nil => exact .nil
  | cons first _ ih =>
    cases h' with
    | cons first' others => exact .cons ⟨first, first'⟩ (ih others)

/-- The terms of an allocated program fit. -/
theorem AllocatedGlobals.terms_fit {p : Program} {items : List Item} {t : Tables}
    (h : AllocatedGlobals {} p.globals items t) : ∀ item ∈ items, item.term.Fits := by
  have valid := h.grows.valid
  intro item mem
  have slots : ∀ slot ∈ item.term.slots, slot < t.constants.size := by
    intro slot inside
    rw [← List.mem_range, ← h.slots_eq]
    exact List.mem_flatMap.2 ⟨item, mem, inside⟩
  cases item with
  | entry value =>
    have inside : value ∈ entryTerms items := List.mem_filterMap.2 ⟨_, mem, rfl⟩
    obtain ⟨e, placed⟩ := forall_mem_of_forall₂ (q := fun value => ∃ e, Placed {} t 0 e value)
      h.entries.flip (fun _ e placed => ⟨e, placed⟩) value inside
    exact placed.fits valid (Nat.zero_le _) slots
  | body index value =>
    have inside : (index, value) ∈ bodies items := List.mem_filterMap.2 ⟨_, mem, rfl⟩
    obtain ⟨d, placed⟩ := forall_mem_of_forall₂ (q := fun body => ∃ d, PlacedBody t d body)
      h.definitions.flip (fun _ d placed => ⟨d, placed⟩) _ inside
    have params_le : d.params.length ≤ 254 := placed.params_le
    obtain ⟨scope, -, body⟩ := placed.placed
    exact body.fits valid (by omega) slots

/-- A program that can be allocated has no number that does not fit. -/
theorem Program.allocate_exact {p : Program} {items : List Item} {t : Tables}
    (h : p.allocate = .ok (items, t)) : p.Exact items t := by
  have allocated := Program.allocate_spec h
  have reserved := Program.allocate_reserves h
  have terms := allocated.terms_fit
  have definition_needs : ∀ d ∈ p.definitions, d.need ≤ 256 :=
    forall_mem_of_forall₂ allocated.definitions fun _ _ placed => placed.need_le
  have entry_needs : ∀ e ∈ p.entries, e.entryNeed ≤ 256 :=
    forall_mem_of_forall₂ allocated.entries fun _ _ placed => placed.entryNeed_le
  have entry : t.entryReservation = (p.entries.map Expr.entryNeed).foldr max 0 := by
    rw [reserved.entry_eq, entriesReach_eq allocated.entries]
    exact Nat.zero_max _
  have small : SmallFrames t.functions :=
    allocateGlobals_smallFrames Tables.valid_start h (by simp [SmallFrames])
  exact
    { params := by
        refine forall_mem_of_forall₂ allocated.definitions ?_
        intro d body placed
        have params_le : d.params.length ≤ 254 := placed.params_le
        exact ⟨params_le, bindParams?_eq (by omega)⟩
      terms
      frames := by
        have both := forall₂_and allocated.definitions reserved.bodies
        exact both.imp fun d body ⟨placed, noted⟩ => noted.reservation_eq placed
      entry
      frames_le := by
        intro f mem
        obtain ⟨i, hi⟩ := Array.mem_iff_getElem?.1 mem
        exact small i f hi
      entry_le := by
        rw [entry]
        exact List.max_le_of_forall_le _ _ (List.forall_mem_map.2 entry_needs)
      needs_le := ⟨definition_needs, entry_needs⟩
      constants_le := allocated.grows.valid.constants_le
      functions_le := allocated.grows.valid.functions_le
      entries := fun f mem =>
        have short := allocated.grows.valid.short f mem
        ⟨short.name_le, short.types_le⟩
      generated := allocated.generate?_eq terms }

/-- Calls with one argument each, one inside the other. -/
def nestedCalls : Nat → Expr
  | 0 => .const true (.int 1)
  | depth + 1 => .call true "f" [nestedCalls depth]

/-- A program whose entry section needs every register that there is. -/
def brimming : Program := ⟨[.entry (nestedCalls 255)]⟩

theorem Program.allocate_exact_brimming :
    ∃ items t, brimming.allocate = .ok (items, t) ∧ brimming.Exact items t ∧
      t.entryReservation = 256 := by
  have frame : brimming.allocate.toOption.map (·.2.entryReservation) = some 256 := by
    decide +kernel
  cases allocated : brimming.allocate with
  | error e =>
    rw [allocated] at frame
    cases frame
  | ok r =>
    rw [allocated] at frame
    exact ⟨r.1, r.2, rfl, Program.allocate_exact allocated, Option.some.inj frame⟩

/-- One call more, and there is no register left. -/
example : (Program.allocate ⟨[.entry (nestedCalls 256)]⟩).map (·.2.entryReservation) =
    .error (.tooManyRegisters entryFrame) := by
  decide +kernel

end RegLisp
