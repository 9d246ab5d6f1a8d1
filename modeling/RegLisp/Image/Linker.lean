import RegLisp.Image.Link

/-!
# The linker

A linker works on one table of slots for all modules. Its first pass sets the modules one behind
the other, gives each entry a slot and notes the slots of the definitions. Its second pass goes
through the references and fills in their slots from those of their definitions. A linker can be
used again, whatever became of the round before: a round starts from no definitions.
-/

namespace RegLisp

/-- The address in the slot of a reference that is not filled in yet. -/
def openAddress : Nat := 0xFFFFFFFFFFFFFFFF

/-- The slot of an entry of module number `module`, whose code starts at `code`. -/
def FunctionEntry.slot (f : FunctionEntry) (module code : Nat) : LinkedFunction :=
  { name := f.name
    address :=
      match f.address with
      | some address => code + address.toNat
      | none => openAddress
    module
    reservation := f.reservation
    types := f.types }

/-- Where the sections of a further module start. -/
def Image.ends (img : Image) : Offsets :=
  { functions := img.functions.size, constants := img.constants.size, code := img.code.size }

/-- A linker, with the names and slots of the definitions that its last round has found. -/
structure Linker where
  slots : List (String × Nat) := []
  deriving DecidableEq, Repr

namespace Linker

/-- The name of the module that a slot belongs to. -/
def definer (ms : List Module) (table : Array LinkedFunction) (slot : Nat) : String :=
  ((table[slot]?.bind fun s => ms[s.module]?).map Module.name).getD ""

/-- Give slots to entries of module number `index` of the modules, behind those of the table. -/
def enter (ms : List Module) (index : Nat) (m : Module) (l : Linker)
    (table : Array LinkedFunction) :
    List FunctionEntry → Except LinkError (Array LinkedFunction) × Linker
  | [] => (.ok table, l)
  | f :: fs =>
    let slot := f.slot index m.offsets.code
    if f.isExternal then enter ms index m l (table.push slot) fs
    else
      match l.slots.lookup f.name with
      | some first => (.error (.duplicateDefinition f.name (definer ms table first) m.name), l)
      | none => enter ms index m ⟨(f.name, table.size) :: l.slots⟩ (table.push slot) fs

/-- Set modules, the first of which is number `index` of all of them, behind those of an image. -/
def merge (all : List Module) (index : Nat) (l : Linker) (img : Image) :
    List Module → Except LinkError Image × Linker
  | [] => (.ok img, l)
  | m :: ms =>
    if m.offsets = img.ends then
      match enter all index m l img.functions m.functions.toList with
      | (.error e, l) => (.error e, l)
      | (.ok functions, l) =>
        let img : Image :=
          { functions
            constants := img.constants ++ m.constants
            code := img.code ++ m.code
            modules := img.modules.push m.span }
        merge all (index + 1) l img ms
    else (.error (.misplacedModule m.name), l)

/-- Fill in the slot of a reference of a module, which has the given index in its table. -/
def fill (l : Linker) (m : Module) (table : Array LinkedFunction) (reference : Nat × FunctionEntry) :
    Except LinkError (Array LinkedFunction) :=
  let (index, f) := reference
  match (l.slots.lookup f.name).bind fun slot => table[slot]? with
  | none => .error (.unresolvedSymbol f.name m.name)
  | some d =>
    if typesAgree f.types d.types then
      .ok (table.modify (m.offsets.functions + index) fun s =>
        { s with address := d.address, module := d.module, reservation := d.reservation })
    else .error (.signatureMismatch d.name m.name d.types f.types)

/-- Fill in the slots of all references of modules. -/
def fillAll (l : Linker) (table : Array LinkedFunction) (ms : List Module) :
    Except LinkError (Array LinkedFunction) :=
  ms.foldlM (fun table m => m.references.foldlM (l.fill m) table) table

/-- A round of linking, for modules that stand at their offsets. -/
def link (l : Linker) (ms : List Module) : Except LinkError Image × Linker :=
  if ms.isEmpty then (.error .noModules, l)
  else
    match merge ms 0 {} ⟨#[], #[], #[], #[]⟩ ms with
    | (.error e, l) => (.error e, l)
    | (.ok img, l) => ((l.fillAll img.functions ms).map fun functions => { img with functions }, l)

end Linker

/-- Place modules one behind the other and link them with a new linker. -/
def linkModules (ms : List Module) : Except LinkError Image :=
  (({} : Linker).link (assignOffsets ms)).1

end RegLisp
