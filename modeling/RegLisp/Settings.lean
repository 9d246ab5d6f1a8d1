import RegLisp.Machine.Basic
import RegLisp.Toml.Document

/-!
# Settings

Settings come from a configuration document with two sections: `vm` bounds runs, and `compiler`
says where module files go. Whatever is missing keeps its default. The document may have no other
section; keys that a section does not know are passed over.
-/

namespace RegLisp

/-- What a configuration file sets. -/
structure Settings where
  limits : Limits := {}
  /-- The directory for module files; beside their sources if there is none. -/
  outputDir : Option String := none
  deriving DecidableEq, Repr

/-- Why settings cannot be had from a document. -/
inductive SettingsError where
  /-- Not a configuration document, or one with a value of the wrong type. -/
  | malformed
  | smallRegisterFile (size : Nat)
  | emptyCallStack
  deriving DecidableEq, Repr

namespace Settings

open Toml (Node Entries)

/-- A whole number that is not negative. -/
def natural? : Node → Option Nat
  | .integer value => if 0 ≤ value then some value.toNat else none
  | _ => none

def flag? : Node → Option Bool
  | .boolean value => some value
  | _ => none

def text? : Node → Option String
  | .string text => some text
  | _ => none

/-- The keys of a section, each with how its value changes the settings. -/
abbrev Keys := List (String × (Node → Settings → Option Settings))

def setLimits (s : Settings) (f : Limits → Limits) : Settings := { s with limits := f s.limits }

def machineKeys : Keys :=
  [("register_file_size", fun node s =>
      (natural? node).map fun n => s.setLimits ({ · with registerFileSize := n })),
   ("max_call_stack", fun node s =>
      (natural? node).map fun n => s.setLimits ({ · with maxCallStack := n })),
   ("max_steps", fun node s =>
      (natural? node).map fun n => s.setLimits ({ · with maxSteps := n })),
   ("trace", fun node s => (flag? node).map fun b => s.setLimits ({ · with trace := b }))]

def compilerKeys : Keys :=
  [("output_dir", fun node s => (text? node).map fun dir => { s with outputDir := some dir })]

/-- Take over the entries of a section by their keys. -/
def readEntries (keys : Keys) : Entries → Settings → Option Settings
  | [], s => some s
  | (key, node) :: entries, s =>
    match keys.lookup key with
    | some assign => (assign node s).bind (readEntries keys entries)
    | none => readEntries keys entries s

/-- Take over the items of a section by their places, in the order of the keys. -/
def readItems : Keys → List Node → Settings → Option Settings
  | (_, assign) :: keys, node :: nodes, s => (assign node s).bind (readItems keys nodes)
  | _, _, s => some s

/-- Take over a section. It is a table; an array gives the values without their keys, and a date
has none of them. -/
def readSection (keys : Keys) (node : Node) (s : Settings) : Option Settings :=
  match node with
  | .table _ entries => readEntries keys entries s
  | .array items => readItems keys items s
  | .date => some s
  | _ => none

/-- Take over the sections of a document. -/
def readDocument : Entries → Settings → Option Settings
  | [], s => some s
  | (key, node) :: entries, s =>
    if key == "vm" then (readSection machineKeys node s).bind (readDocument entries)
    else if key == "compiler" then (readSection compilerKeys node s).bind (readDocument entries)
    else none

/-- Check the values against their bounds. -/
def validate (s : Settings) : Except SettingsError Settings :=
  if s.limits.registerFileSize < minRegisters then
    .error (.smallRegisterFile s.limits.registerFileSize)
  else if s.limits.maxCallStack = 0 then .error .emptyCallStack
  else .ok s

/-- Read settings from a configuration document. -/
def parse (text : String) : Except SettingsError Settings :=
  match (Toml.parse text).bind (readDocument · {}) with
  | some s => s.validate
  | none => .error .malformed

end Settings

/-- The message on a configuration file. -/
def SettingsError.message (path : String) : SettingsError → String
  | malformed => s!"Invalid config {path}: TOML parse error"
  | smallRegisterFile size =>
    s!"Invalid config: vm.register_file_size must be at least {minRegisters}, got {size}"
  | emptyCallStack => "Invalid config: vm.max_call_stack must be positive"

end RegLisp
