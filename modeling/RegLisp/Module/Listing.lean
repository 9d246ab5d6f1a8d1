import RegLisp.Module.Basic

/-!
# Listings

A module as assembly text: its name, the functions it takes from other modules, and its sections
with their signatures, frame sizes and instructions. Indices into the tables are shown with what
they stand for.
-/

namespace RegLisp

/-- A word of the constant pool as a signed number. -/
def constantText : Option UInt64 → String
  | some word => toString word.toInt64.toInt
  | none => "???"

/-- A word of the constant pool as an address. -/
def targetText : Option UInt64 → String
  | some word => Text.hex 4 word.toNat
  | none => "???"

/-- What the index of an instruction stands for in the module: a word of the constant pool, the
target of a jump, or the name of a function. -/
def Module.noteText (m : Module) (i : Instruction) : String :=
  let word := m.constants[i.constIndex]?
  match i.op? with
  | some .loadi => s!" ({constantText word})"
  | some .jmpc | some .jmp => s!" (-> {targetText word})"
  | some .calli | some .calle | some .lcalli | some .lcalle =>
    let name := (m.functions[i.callIndex]?.map FunctionEntry.name).getD "???"
    s!" {name}"
  | _ => ""

/-- The instruction at an address as assembly text. -/
def Module.instructionText (m : Module) (address : Nat) : String :=
  match m.code[address]? with
  | none => "???"
  | some i =>
    match i.op? with
    | none => s!"??? (0x{Text.hex 2 i.opcode.toNat})"
    | some _ => i.text ++ m.noteText i

/-- The line of a listing that shows the instruction at an address. -/
def Module.lineText (m : Module) (address : Nat) : String :=
  s!"{Text.hex 4 address}  {m.instructionText address}"

/-- The head of a listing: the name of the module and those of the functions that other modules
define. -/
def Module.headText (m : Module) : String :=
  m.references.foldl (fun text (_, f) => text ++ s!".extern {f.name}\n") s!".module {m.name}\n"

/-- The head of a section: the name of its owner, its signature and the size of its frame. -/
def Module.sectionHead (m : Module) (owner : Option Nat) : String :=
  match owner.bind (m.functions[·]?) with
  | some f =>
    let params := " ".intercalate (f.params.map ValueType.name)
    s!"{f.name}:\n    ; ({params}) -> {f.returns.name}\n    .reserve {f.reservation}\n"
  | none => s!"<entry>:\n    .reserve {m.entryReservation}\n"

/-- A section with its instructions. -/
def Module.sectionText (m : Module) (range : CodeRange) : String :=
  (List.range' range.start (range.stop - range.start)).foldl
    (fun text address => text ++ (m.lineText address ++ "\n")) (m.sectionHead range.owner)

/-- A module as assembly text. -/
def Module.listing (m : Module) : String :=
  m.codeRanges.foldl (fun text range => text ++ m.sectionText range) m.headText

end RegLisp
