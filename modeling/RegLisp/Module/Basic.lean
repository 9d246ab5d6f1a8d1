import RegLisp.Code.Instruction
import RegLisp.Value

/-!
# Modules

A module is one unit of code with its own function table and constant pool. The code starts with
the entry section, and every defined function owns the code from its address up to the next
address of a definition. How many registers a frame needs is derived from the code it runs.
-/

namespace RegLisp

/-- The address that stands for "defined elsewhere" in a module file. -/
def externalAddress : UInt64 := 0xFFFFFFFFFFFFFFFF

/-- An entry of a function table. -/
structure FunctionEntry where
  name : String
  /-- Where the function starts in the code of its module; `none` if another module defines it. -/
  address : Option UInt64
  /-- The type of the result, then those of the parameters. -/
  types : List ValueType
  /-- How many registers a frame of the function needs. -/
  reservation : Nat := 0
  deriving DecidableEq, Repr

namespace FunctionEntry

/-- Whether another module defines the function. -/
def isExternal (f : FunctionEntry) : Bool := f.address.isNone

/-- The address as a module file holds it. -/
def storedAddress (f : FunctionEntry) : UInt64 := f.address.getD externalAddress

def returns (f : FunctionEntry) : ValueType := f.types.headD .unknown

def params (f : FunctionEntry) : List ValueType := f.types.tail

end FunctionEntry

/-- Where the sections of a module start in an image. -/
structure Offsets where
  functions : Nat := 0
  constants : Nat := 0
  code : Nat := 0
  deriving DecidableEq, Repr

/-- A stretch of code. The owner is an index into the function table, or `none` for the entry
section. -/
structure CodeRange where
  owner : Option Nat
  start : Nat
  stop : Nat
  deriving DecidableEq, Repr

/-- A module that is not linked yet. -/
structure Module where
  name : String
  functions : Array FunctionEntry
  constants : Array UInt64
  code : Array Instruction
  offsets : Offsets := {}
  /-- How many registers the frame of the entry section needs. -/
  entryReservation : Nat := 0
  deriving DecidableEq, Repr

/-- How many registers the instructions from `start` up to `stop` need in their frame. -/
def frameSize (code : Array Instruction) (start stop : Nat) : Nat :=
  (code.extract start stop).foldl
    (fun size i => max size ((i.maxLocalRegister.map (· + 1)).getD 0)) 0

namespace Module

/-- The module at another place of an image. -/
def withOffsets (m : Module) (offsets : Offsets) : Module := { m with offsets }

/-- The first entry of the function table with the given name. -/
def findFunction (m : Module) (name : String) : Option FunctionEntry :=
  m.functions.find? (·.name == name)

/-- The opcode at an address, if there is one. -/
def opcodeAt (m : Module) (address : Nat) : Option Opcode :=
  m.code[address]?.bind Instruction.op?

/-- The entries that the given test accepts, with their indices. -/
def entriesWhere (m : Module) (p : FunctionEntry → Bool) : List (Nat × FunctionEntry) :=
  (m.functions.toList.zipIdx.map fun (f, i) => (i, f)).filter (p ·.2)

/-- The functions that the module defines. -/
def definitions (m : Module) : List (Nat × FunctionEntry) := m.entriesWhere (!·.isExternal)

/-- The functions that other modules define. -/
def references (m : Module) : List (Nat × FunctionEntry) := m.entriesWhere (·.isExternal)

/-- Inserts a definition, given by its index and start, before the first that starts no earlier. -/
def insertStart (d : Nat × Nat) : List (Nat × Nat) → List (Nat × Nat)
  | [] => [d]
  | e :: ds => if d.2 ≤ e.2 then d :: e :: ds else e :: insertStart d ds

/-- The indices and starts of the definitions, in the order of their starts. Definitions with one
start keep the order of the table. -/
def starts (m : Module) : List (Nat × Nat) :=
  (m.definitions.map fun (i, f) => (i, f.storedAddress.toNat)).foldr insertStart []

/-- The code of definitions, given their indices and starts in the order of the starts. It ends at
the first later start that is greater, or where the code does. No range reaches behind the code,
wherever the starts are. -/
def definedRanges (size : Nat) : List (Nat × Nat) → List CodeRange
  | [] => []
  | (i, start) :: later =>
    let stop := ((later.map Prod.snd).find? (start < ·)).getD size
    ⟨some i, min start size, min stop size⟩ :: definedRanges size later

/-- The entry section and then the code of each definition, in the order of their starts. -/
def codeRanges (m : Module) : List CodeRange :=
  let size := m.code.size
  let stop := (m.starts.head?.map Prod.snd).getD size
  ⟨none, 0, min stop size⟩ :: definedRanges size m.starts

/-- The module with the frame size that the code of one range asks for. -/
def reserve (m : Module) (range : CodeRange) : Module :=
  let size := frameSize m.code range.start range.stop
  match range.owner with
  | some i => { m with functions := m.functions.modify i ({ · with reservation := size }) }
  | none => { m with entryReservation := size }

/-- A module with the given parts, in which every range has got the frame size that it asks for. -/
def ofParts (name : String) (functions : Array FunctionEntry) (constants : Array UInt64)
    (code : Array Instruction) : Module :=
  let m : Module := { name, functions, constants, code }
  m.codeRanges.foldl reserve m

end Module

end RegLisp
