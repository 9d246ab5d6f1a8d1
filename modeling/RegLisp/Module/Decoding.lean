import RegLisp.Module.Encoding

/-!
# Module files: reading

A file is read from front to back, and the first thing that is wrong with it is reported. Each
reader takes what is left of the file and gives its value and what is left then.
-/

namespace RegLisp

/-- The parts of a module file, as messages name them. -/
inductive FilePart where
  | header
  | functionTable
  | constantPool
  | instructions
  deriving DecidableEq, Repr

def FilePart.text : FilePart → String
  | header => "header"
  | functionTable => "function table"
  | constantPool => "constant pool"
  | instructions => "instructions"

/-- Why a module cannot be loaded. -/
inductive LoadError where
  /-- The file cannot be read. -/
  | unreadable (path : String) (reason : String)
  | badMagic (first second : UInt8)
  /-- The file ends before the field that should start at the given offset does. -/
  | truncated (part : FilePart) (offset : Nat)
  | tooManyFunctions (count : Nat)
  | invalidName (offset : Nat)
  | invalidType (function : String) (byte : UInt8)
  | invalidAddress (function : String) (address : UInt64)
  | invalidOpcode (address : Nat) (byte : UInt8)
  | trailingBytes (count : Nat)
  /-- An earlier error has spoilt the loader. -/
  | inconsistent
  deriving DecidableEq, Repr

def LoadError.message : LoadError → String
  | unreadable path reason => s!"Failed to read '{path}': {reason}"
  | badMagic first second =>
    s!"Bad magic number: expected 4c 49, found {Text.hex 2 first.toNat} {Text.hex 2 second.toNat}"
  | truncated part offset => s!"Unexpected end of input in {part.text} at byte {offset}"
  | tooManyFunctions count => s!"Function count {count} exceeds the 24-bit index range"
  | invalidName offset => s!"Function name at byte {offset} is not valid UTF-8"
  | invalidType function byte => s!"Invalid type byte {byte.toNat} in signature of \"{function}\""
  | invalidAddress function address =>
    s!"Function \"{function}\" has out-of-range address {address.toNat}"
  | invalidOpcode address byte =>
    s!"Invalid opcode 0x{Text.hex 2 byte.toNat} at {Text.hex 4 address}"
  | trailingBytes count => s!"{count} trailing bytes after instructions"
  | inconsistent => "Loader is in an inconsistent state"

/-- What is left of a file, and how many bytes stand before it. -/
structure Cursor where
  rest : List UInt8
  offset : Nat := 0
  deriving DecidableEq, Repr

/-- A reader of one value. -/
abbrev Read (α : Type) := Cursor → Except LoadError (α × Cursor)

/-- The value of bytes, lowest first. -/
def ofLittleEndian : List UInt8 → Nat
  | [] => 0
  | b :: bs => b.toNat + 256 * ofLittleEndian bs

/-- Read so many bytes. -/
def readBytes (part : FilePart) (count : Nat) : Read (List UInt8) := fun c =>
  let front := c.rest.take count
  if front.length = count then .ok (front, ⟨c.rest.drop count, c.offset + count⟩)
  else .error (.truncated part c.offset)

/-- Read a number of so many bytes. -/
def readNat (part : FilePart) (width : Nat) : Read Nat := fun c => do
  let (bytes, c) ← readBytes part width c
  return (ofLittleEndian bytes, c)

/-- Read so many values, after those already `done`. -/
def readMany {α : Type} (read : Read α) : Nat → Array α → Read (Array α)
  | 0, done, c => .ok (done, c)
  | count + 1, done, c =>
    match read c with
    | .error e => .error e
    | .ok (a, c) => readMany read count (done.push a) c

/-- The text of bytes, if they are valid. -/
def textOfBytes? (bytes : List UInt8) : Option String :=
  String.fromUTF8? ⟨bytes.toArray⟩

/-- The types of the bytes of a signature. -/
def readTypes (function : String) : List UInt8 → Except LoadError (List ValueType)
  | [] => .ok []
  | b :: bs =>
    match ValueType.ofByte? b with
    | none => .error (.invalidType function b)
    | some type => do return type :: (← readTypes function bs)

/-- Read an entry of the function table of a module with so many instructions. A defined function
starts at one of them. -/
def readFunction (instructions : Nat) : Read FunctionEntry := fun c => do
  let (nameLength, c) ← readNat .functionTable 1 c
  let (typeCount, c) ← readNat .functionTable 1 c
  let (address, c) ← readNat .functionTable 8 c
  let nameOffset := c.offset
  let (nameBytes, c) ← readBytes .functionTable nameLength c
  let name ←
    match textOfBytes? nameBytes with
    | some name => .ok name
    | none => .error (.invalidName nameOffset)
  let (typeBytes, c) ← readBytes .functionTable typeCount c
  let types ← readTypes name typeBytes
  if address = externalAddress.toNat then return (⟨name, none, types, 0⟩, c)
  else if address < instructions then return (⟨name, some (.ofNat address), types, 0⟩, c)
  else throw (.invalidAddress name (.ofNat address))

/-- Cut bytes into instructions, the first of which stands at `address`. -/
def readCode (address : Nat) (done : Array Instruction) :
    List UInt8 → Except LoadError (Array Instruction)
  | opcode :: a :: b :: c :: rest =>
    match Opcode.ofByte? opcode with
    | none => .error (.invalidOpcode address opcode)
    | some _ => readCode (address + 1) (done.push ⟨opcode, a, b, c⟩) rest
  | _ => .ok done

/-- The greatest number of functions that the index of a call can tell apart. -/
def maxFunctions : Nat := 256 * 256 * 256

/-- Read a module from its file. -/
def Module.decode (name : String) (bytes : List UInt8) : Except LoadError Module := do
  let c : Cursor := ⟨bytes, 0⟩
  let (found, c) ← readBytes .header 2 c
  if found ≠ magic then throw (.badMagic (found.getD 0 0) (found.getD 1 0))
  let (constantCount, c) ← readNat .header 2 c
  let (functionCount, c) ← readNat .header 4 c
  let (instructionCount, c) ← readNat .header 8 c
  if maxFunctions < functionCount then throw (.tooManyFunctions functionCount)
  let (functions, c) ← readMany (readFunction instructionCount) functionCount #[] c
  let (constants, c) ← readMany (readNat .constantPool 8) constantCount #[] c
  let (codeBytes, c) ← readBytes .instructions (4 * instructionCount) c
  let code ← readCode 0 #[] codeBytes
  if c.rest ≠ [] then throw (.trailingBytes c.rest.length)
  return .ofParts name functions (constants.map .ofNat) code

/-- A module file that is to be loaded. After an error it refuses to be loaded again. -/
structure Loader where
  name : String
  bytes : List UInt8
  offsets : Offsets := {}
  consistent : Bool := true
  deriving DecidableEq, Repr

/-- Load the module at the offsets of the loader. -/
def Loader.load (l : Loader) : Except LoadError Module × Loader :=
  if l.consistent then
    match Module.decode l.name l.bytes with
    | .ok m => (.ok (m.withOffsets l.offsets), l)
    | .error e => (.error e, { l with consistent := false })
  else (.error .inconsistent, l)

end RegLisp
