import RegLisp.Image.Basic

/-!
# Linking

Modules are linked in two steps. The first collects the definitions of all modules: no two of them
may have one name. The second resolves each entry of the function tables: a definition stands for
itself, and a reference for the definition of its name, with which its signature has to agree.
-/

namespace RegLisp

/-- Why modules cannot be linked. -/
inductive LinkError where
  | noModules
  | duplicateDefinition (name first second : String)
  | unresolvedSymbol (name module : String)
  | signatureMismatch (name module : String) (expected found : List ValueType)
  /-- The offsets of a module are not those of its place in the order. -/
  | misplacedModule (module : String)
  deriving DecidableEq, Repr

/-- The name of a type in the message on a signature. -/
def ValueType.title : ValueType → String
  | int => "Int"
  | single => "Single"
  | double => "Double"
  | unknown => "Unknown"

/-- Types in brackets, separated by commas. -/
def ValueType.listTitle (types : List ValueType) : String :=
  "[" ++ ", ".intercalate (types.map title) ++ "]"

def LinkError.message : LinkError → String
  | noModules => "No modules to link"
  | duplicateDefinition name first second =>
    s!"Duplicate function \"{name}\" defined in {first} and {second}"
  | unresolvedSymbol name module => s!"Unresolved symbol \"{name}\" referenced from {module}"
  | signatureMismatch name module expected found =>
    let expected := ValueType.listTitle expected
    let found := ValueType.listTitle found
    s!"Signature mismatch for \"{name}\" referenced from {module}: defined as {expected}, used as {found}"
  | misplacedModule module => s!"Module {module} has offsets inconsistent with link order"

/-- A definition and the name of its module. -/
structure Known where
  function : LinkedFunction
  moduleName : String
  deriving DecidableEq, Repr

/-- The definition of a name. -/
def findKnown (known : List Known) (name : String) : Option Known :=
  known.find? (·.function.name == name)

/-- The function that a definition at an address of a module is in the image. -/
def FunctionEntry.linked (f : FunctionEntry) (module code : Nat) (address : UInt64) :
    LinkedFunction :=
  { name := f.name
    address := code + address.toNat
    module
    reservation := f.reservation
    types := f.types }

/-- Collect the definitions among the entries of module number `index`. -/
def collectEntries (index : Nat) (m : Module) (known : List Known) :
    List FunctionEntry → Except LinkError (List Known)
  | [] => .ok known
  | f :: fs =>
    match f.address with
    | none => collectEntries index m known fs
    | some address =>
      match findKnown known f.name with
      | some first => .error (.duplicateDefinition f.name first.moduleName m.name)
      | none =>
        let function := f.linked index m.offsets.code address
        collectEntries index m (⟨function, m.name⟩ :: known) fs

/-- Collect the definitions of modules, the first of which has number `index` and should stand at
the given offsets. -/
def collect (index : Nat) (expected : Offsets) (known : List Known) :
    List Module → Except LinkError (List Known)
  | [] => .ok known
  | m :: ms =>
    if m.offsets = expected then
      match collectEntries index m known m.functions.toList with
      | .error e => .error e
      | .ok known => collect (index + 1) (expected.after m) known ms
    else .error (.misplacedModule m.name)

/-- The function that an entry of module number `index` stands for. A reference keeps the types
that it was declared with. -/
def resolve (known : List Known) (index : Nat) (m : Module) (f : FunctionEntry) :
    Except LinkError LinkedFunction :=
  match f.address with
  | some address => .ok (f.linked index m.offsets.code address)
  | none =>
    match findKnown known f.name with
    | none => .error (.unresolvedSymbol f.name m.name)
    | some d =>
      if typesAgree f.types d.function.types then .ok { d.function with types := f.types }
      else .error (.signatureMismatch f.name m.name d.function.types f.types)

/-- Resolve the entries of modules, the first of which has number `index`, after those already
`done`. -/
def resolveAll (known : List Known) (index : Nat) (done : Array LinkedFunction) :
    List Module → Except LinkError (Array LinkedFunction)
  | [] => .ok done
  | m :: ms =>
    match m.functions.toList.mapM (resolve known index m) with
    | .error e => .error e
    | .ok functions => resolveAll known (index + 1) (done ++ functions) ms

/-- Link modules that stand at their offsets. -/
def Image.link (ms : List Module) : Except LinkError Image :=
  if ms.isEmpty then .error .noModules
  else
    match collect 0 {} [] ms with
    | .error e => .error e
    | .ok known =>
      match resolveAll known 0 #[] ms with
      | .error e => .error e
      | .ok functions => .ok {
          functions
          constants := ms.foldl (fun words m => words ++ m.constants) #[]
          code := ms.foldl (fun code m => code ++ m.code) #[]
          modules := (ms.map Module.span).toArray }

end RegLisp
