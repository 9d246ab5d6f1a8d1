import RegLisp.Compile.Error
import RegLisp.Module.Basic

/-!
# Tables of a compilation

What the compiler has collected so far: the function table with the index of each name in it, the
constant pool, and how far the registers of the current frame are in use. The tables only grow,
within the bounds that a module file and an instruction can hold.
-/

namespace RegLisp

/-- How many registers the instructions of a frame can name. -/
def frameRegisters : Nat := 256

/-- How many constants a module can have. -/
def maxConstants : Nat := 65535

/-- The greatest index that a call can hold. -/
def maxCallIndex : Nat := 0xFFFFFF

/-- The greatest length that a byte can hold, for a name or a signature. -/
def maxLength : Nat := 255

/-- The indices of names. A name has one index at most. -/
structure NameIndex where
  pairs : List (String × Nat)
  nodup : (pairs.map Prod.fst).Nodup
  deriving DecidableEq, Repr

namespace NameIndex

def empty : NameIndex := ⟨[], .nil⟩

/-- The index of a name, if it has one. -/
def find? (names : NameIndex) (name : String) : Option Nat := names.pairs.lookup name

/-- Give a name an index, in place of the one that it may have. -/
def insert (names : NameIndex) (name : String) (index : Nat) : NameIndex where
  pairs := (name, index) :: names.pairs.filter (·.1 ≠ name)
  nodup := by
    rw [List.map_cons, List.nodup_cons]
    refine ⟨by simp, names.nodup.sublist (List.filter_sublist.map _)⟩

/-- How many names have an index. -/
def size (names : NameIndex) : Nat := names.pairs.length

end NameIndex

/-- The tables of a compilation. -/
structure Tables where
  functions : Array FunctionEntry := #[]
  /-- Where each function is in the table. -/
  indices : NameIndex := .empty
  constants : Array UInt64 := #[]
  /-- The next free register of the current frame. -/
  nextReg : Nat := 0
  /-- One more than the greatest register that the current frame has used. -/
  maxReg : Nat := 0
  /-- The function whose frame it is, for messages. -/
  frameName : String := ""
  /-- How many registers the frame of the entry section needs. -/
  entryReservation : Nat := 0
  deriving DecidableEq, Repr

namespace Tables

/-- Start the frame of a function, with the given register as the first free one. -/
def beginFrame (t : Tables) (name : String) (first : Nat) : Tables :=
  { t with frameName := name, nextReg := first, maxReg := first }

/-- Note the use of a register. -/
def touch (t : Tables) (reg : Nat) : Except CompileError Nat × Tables :=
  if reg < frameRegisters then (.ok reg, { t with maxReg := max t.maxReg (reg + 1) })
  else (.error (.tooManyRegisters t.frameName), t)

/-- Take the next free register. It counts as taken even when the frame has no such register. -/
def alloc (t : Tables) : Except CompileError Nat × Tables :=
  { t with nextReg := t.nextReg + 1 }.touch t.nextReg

/-- How many registers the current frame needs, as a 16-bit number. -/
def reservation (t : Tables) : Nat := t.maxReg % 65536

/-- Add a word to the constant pool and give its index. -/
def addConstant (t : Tables) (word : UInt64) : Except CompileError Nat × Tables :=
  if t.constants.size < maxConstants then
    (.ok t.constants.size, { t with constants := t.constants.push word })
  else (.error .tooManyConstants, t)

/-- Put another word in a slot of the constant pool. -/
def patch (t : Tables) (slot : Nat) (word : UInt64) : Tables :=
  { t with constants := t.constants.setIfInBounds slot word }

/-- The index of a function. -/
def lookup (t : Tables) (name : String) : Option Nat := t.indices.find? name

/-- Add an entry to the function table and give its index. Whether the name has an entry already
is for the caller to know. -/
def insert (t : Tables) (entry : FunctionEntry) : Except CompileError Nat × Tables :=
  if maxCallIndex < t.functions.size then (.error .tooManyFunctions, t)
  else if maxLength < entry.name.utf8ByteSize then (.error (.nameTooLong entry.name), t)
  else if maxLength < entry.types.length then (.error (.tooManyParameters entry.name), t)
  else
    (.ok t.functions.size,
      { t with
        functions := t.functions.push entry
        indices := t.indices.insert entry.name t.functions.size })

/-- Change the entry of a function. -/
def modify (t : Tables) (index : Nat) (f : FunctionEntry → FunctionEntry) : Tables :=
  { t with functions := t.functions.modify index f }

end Tables

end RegLisp
