import RegLisp.Module.Placement

/-!
# Images

An image is a linked program: the function tables, constant pools and codes of its modules, each
set one behind the other. Inside a module, indices count from the module's own part of a table.
-/

namespace RegLisp

/-- A function of an image. -/
structure LinkedFunction where
  name : String
  /-- Where the function starts in the code of the image. -/
  address : Nat
  /-- The module that defines it. -/
  module : Nat
  /-- How many registers a frame of the function needs. -/
  reservation : Nat
  /-- The type of the result, then those of the parameters. -/
  types : List ValueType
  deriving DecidableEq, Repr

/-- The part of an image that comes from one module. -/
structure Span where
  name : String
  offsets : Offsets
  functionCount : Nat
  constantCount : Nat
  instructionCount : Nat
  entryReservation : Nat
  deriving DecidableEq, Repr

/-- A linked program. -/
structure Image where
  functions : Array LinkedFunction
  constants : Array UInt64
  code : Array Instruction
  modules : Array Span
  deriving DecidableEq, Repr

/-- The part of an image that a module takes. -/
def Module.span (m : Module) : Span :=
  { name := m.name
    offsets := m.offsets
    functionCount := m.functions.size
    constantCount := m.constants.size
    instructionCount := m.code.size
    entryReservation := m.entryReservation }

namespace Image

/-- The function that an index means inside a module. -/
def function (img : Image) (module index : Nat) : Option LinkedFunction :=
  match img.modules[module]? with
  | none => none
  | some span =>
    if index < span.functionCount then img.functions[span.offsets.functions + index]? else none

/-- The constant that an index means inside a module. -/
def constant (img : Image) (module index : Nat) : Option UInt64 :=
  match img.modules[module]? with
  | none => none
  | some span =>
    if index < span.constantCount then img.constants[span.offsets.constants + index]? else none

/-- The first function of the given name. -/
def findFunction (img : Image) (name : String) : Option LinkedFunction :=
  img.functions.find? (·.name == name)

/-- Where the code of a module starts. -/
def codeOffset (img : Image) (module : Nat) : Nat :=
  match img.modules[module]? with
  | none => 0
  | some span => span.offsets.code

/-- Where the program starts, and the size of its first frame: the entry section of the first
module. -/
def entry (img : Image) : Nat × Nat :=
  match img.modules[0]? with
  | none => (0, 0)
  | some span => (span.offsets.code, span.entryReservation)

end Image

end RegLisp
