import RegLisp.Compile.Allocate
import RegLisp.Compile.Generate
import RegLisp.Module.Decoding

/-!
# Compiled units

A compiled unit is the file of a module with its tables. These come from allocation, and the
passes of generation fill in their addresses.
-/

namespace RegLisp

/-- The result of compiling one program. -/
structure CompiledUnit where
  name : String
  bytes : List UInt8
  functions : Array FunctionEntry
  constants : Array UInt64
  /-- How many registers the frame of the entry section needs. -/
  entryReservation : Nat
  deriving DecidableEq, Repr

/-- Count the instructions of a program, and fill in the addresses in its tables. -/
def Tables.forwardPass (t : Tables) (items : List Item) : Pass :=
  Pass.run { functions := t.functions, constants := t.constants } items

/-- Write the file of allocated globals. The header and the tables are written between the two
passes. -/
def CompiledUnit.generate (name : String) (items : List Item) (tables : Tables) : CompiledUnit :=
  let forward := tables.forwardPass items
  let emitting := forward.rewind.run items
  { name
    bytes := encodeHeader forward.constants.size forward.functions.size forward.counter ++
      encodeFunctions forward.functions.toList ++ encodeConstants forward.constants.toList ++
      encodeCode emitting.written.toList
    functions := emitting.functions
    constants := emitting.constants
    entryReservation := tables.entryReservation }

/-- Compile a program. -/
def Program.compile (name : String) (p : Program) : Except CompileError CompiledUnit :=
  match p.allocate with
  | .error e => .error e
  | .ok (items, tables) => .ok (.generate name items tables)

/-- Compile a source text. -/
def compileSource (name text : String) : Except CompileError CompiledUnit :=
  match Program.parse text with
  | .error e => .error (.badSyntax e)
  | .ok p => p.compile name

/-- Read the file of a unit back. -/
def CompiledUnit.toModule (u : CompiledUnit) : Except LoadError Module :=
  Module.decode u.name u.bytes

end RegLisp
