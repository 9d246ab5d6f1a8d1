import RegLisp.Program.Surface

/-!
# Why a program does not compile
-/

namespace RegLisp

/-- The place of a program where one type was expected and another one was found. -/
inductive TypeSite where
  | condition
  | returnValue (function : String)
  | returnType (function : String)
  deriving DecidableEq, Repr

def TypeSite.text : TypeSite → String
  | condition => "condition"
  | returnValue function => s!"return value of {function}"
  | returnType function => s!"return type of {function}"

/-- Why a program does not compile. -/
inductive CompileError where
  | badSyntax (cause : SyntaxError)
  | undefinedVariable (name : String)
  | conflictingType (name : String) (bound used : ValueType)
  | typeMismatch (site : TypeSite) (expected found : ValueType)
  /-- A name is bound twice in one scope. -/
  | alreadyDefined (name : String)
  /-- A function has two definitions. -/
  | duplicateDefinition (name : String)
  | signatureMismatch (name : String) (expected found : List ValueType)
  /-- The frame of a function, or of the entry section, needs too many registers. -/
  | tooManyRegisters (frame : String)
  | tooManyConstants
  | tooManyFunctions
  | tooManyParameters (name : String)
  | nameTooLong (name : String)
  deriving DecidableEq, Repr

def CompileError.message : CompileError → String
  | badSyntax cause => s!"Syntax error: {cause.message}"
  | undefinedVariable name => s!"Variable {name} undefined"
  | conflictingType name bound used =>
    s!"Variable {name} has been used with different types: bound as {bound.name}, used as {used.name}"
  | typeMismatch site expected found =>
    s!"Type mismatch in {site.text}: expected {expected.name}, found {found.name}"
  | alreadyDefined name => s!"Symbol \"{name}\" is already defined"
  | duplicateDefinition name => s!"Function \"{name}\" is defined more than once"
  | signatureMismatch name expected found =>
    let expected := ValueType.listText expected
    let found := ValueType.listText found
    s!"Signature mismatch for \"{name}\": expected parameters {expected}, found {found}"
  | tooManyRegisters frame => s!"Too many registers in {frame} (max 256)"
  | tooManyConstants => "Too many constants (max 65535)"
  | tooManyFunctions => "Too many functions (max 16777216)"
  | tooManyParameters name => s!"Too many parameters for \"{name}\" (max 254)"
  | nameTooLong name => s!"Function name too long (max 255 bytes): {name}"

end RegLisp
