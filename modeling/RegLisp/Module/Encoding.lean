import RegLisp.Module.Basic

/-!
# Module files: writing

A module file has four sections: a header with the sizes of the others, the function table, the
constant pool and the instructions. Numbers are stored with their low byte first.
-/

namespace RegLisp

/-- The low `width` bytes of a number, lowest first. -/
def littleEndian : Nat → Nat → List UInt8
  | 0, _ => []
  | width + 1, n => .ofNat n :: littleEndian width (n / 256)

@[simp] theorem length_littleEndian (width n : Nat) : (littleEndian width n).length = width := by
  induction width generalizing n with
  | zero => rfl
  | succ width ih => simp [littleEndian, ih]

/-- The bytes of a text. -/
def textBytes (s : String) : List UInt8 := s.toByteArray.data.toList

/-- The two bytes that every module file starts with. -/
def magic : List UInt8 := [0x4C, 0x49]

/-- The header of a module with the given numbers of constants, functions and instructions. -/
def encodeHeader (constants functions instructions : Nat) : List UInt8 :=
  magic ++ littleEndian 2 constants ++ littleEndian 4 functions ++ littleEndian 8 instructions

/-- An entry of the function table: the lengths of its name and signature, its address, and then
both of them. -/
def FunctionEntry.encode (f : FunctionEntry) : List UInt8 :=
  let name := textBytes f.name
  littleEndian 1 name.length ++ littleEndian 1 f.types.length ++
    littleEndian 8 f.storedAddress.toNat ++ name ++ f.types.map ValueType.toByte

def encodeFunctions (functions : List FunctionEntry) : List UInt8 :=
  functions.flatMap FunctionEntry.encode

def encodeConstants (constants : List UInt64) : List UInt8 :=
  constants.flatMap fun word => littleEndian 8 word.toNat

def encodeCode (code : List Instruction) : List UInt8 :=
  code.flatMap Instruction.toBytes

/-- The file of a module with the given tables and code. -/
def encodeParts (functions : List FunctionEntry) (constants : List UInt64)
    (code : List Instruction) : List UInt8 :=
  encodeHeader constants.length functions.length code.length ++ encodeFunctions functions ++
    encodeConstants constants ++ encodeCode code

/-- The file of a module. -/
def Module.encode (m : Module) : List UInt8 :=
  encodeParts m.functions.toList m.constants.toList m.code.toList

/-- A part of a module file. -/
inductive Section where
  | header (constants functions instructions : Nat)
  | functions (entries : List FunctionEntry)
  | constants (words : List UInt64)
  | instruction (i : Instruction)
  deriving Repr

def Section.encode : Section → List UInt8
  | header numConstants numFunctions numInstructions =>
    encodeHeader numConstants numFunctions numInstructions
  | functions entries => encodeFunctions entries
  | constants words => encodeConstants words
  | instruction i => i.toBytes

/-- A file that is being written section by section. While it is muted, nothing is added. -/
structure ModuleWriter where
  bytes : List UInt8 := []
  muted : Bool := false
  deriving DecidableEq, Repr

/-- The bytes that writing a section adds. -/
def ModuleWriter.added (w : ModuleWriter) (s : Section) : List UInt8 :=
  if w.muted then [] else s.encode

def ModuleWriter.write (w : ModuleWriter) (s : Section) : ModuleWriter :=
  { w with bytes := w.bytes ++ w.added s }

end RegLisp
