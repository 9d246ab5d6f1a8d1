import RegLisp.Module.Decoding

/-!
# Placing modules

In an image the sections of the modules stand one behind the other, in the order in which the
modules are given. A module's offsets are the sizes of the sections before its own.
-/

namespace RegLisp

/-- The offsets of what comes behind a module. -/
def Offsets.after (o : Offsets) (m : Module) : Offsets :=
  { functions := o.functions + m.functions.size
    constants := o.constants + m.constants.size
    code := o.code + m.code.size }

/-- Place modules one behind the other from the given offsets on. -/
def placeFrom (o : Offsets) : List Module → List Module
  | [] => []
  | m :: ms => m.withOffsets o :: placeFrom (o.after m) ms

/-- Place modules one behind the other. -/
def assignOffsets (ms : List Module) : List Module := placeFrom {} ms

/-- A module file: its path, the name of its module, and its contents or why they cannot be
read. -/
structure ModuleFile where
  path : String
  name : String
  contents : Except String (List UInt8)

/-- Load a file at the given offsets. -/
def ModuleFile.load (f : ModuleFile) (o : Offsets := {}) : Except LoadError Module :=
  match f.contents with
  | .error reason => .error (.unreadable f.path reason)
  | .ok bytes => (Loader.load { name := f.name, bytes, offsets := o }).1

/-- Load files one behind the other from the given offsets on, up to the first that fails. -/
def loadFrom (o : Offsets) : List ModuleFile → Except LoadError (List Module)
  | [] => .ok []
  | f :: fs =>
    match f.load o with
    | .error e => .error e
    | .ok m =>
      match loadFrom (o.after m) fs with
      | .error e => .error e
      | .ok ms => .ok (m :: ms)

/-- Load files one behind the other. -/
def loadModules (fs : List ModuleFile) : Except LoadError (List Module) := loadFrom {} fs

end RegLisp
