/-!
# Arguments of the command line

A command line is options and a verb with its operands. Options that hold for every verb may stand
before it or behind it; the others belong to their verb. Reading goes from left to right and stops
at the first argument that is wrong or asks for help. The value of a flag that is an argument of
its own is judged late: when the next flag or operand comes, or at the end. A verb does not wait
for that, so help on it is given in spite of a wrong value before it.
-/

namespace RegLisp.Command

/-- What is to be done. -/
inductive Verb where
  | compile
  | execute
  | dump
  deriving DecidableEq, Repr

def Verb.name : Verb → String
  | compile => "compile"
  | execute => "execute"
  | dump => "dump"

def Verb.ofName? (name : String) : Option Verb := [compile, execute, dump].find? (·.name == name)

inductive Flag where
  | config
  | verbose
  | outputDir
  | trace
  | maxSteps
  | help
  | version
  deriving DecidableEq, Repr

namespace Flag

def long : Flag → String
  | config => "config"
  | verbose => "verbose"
  | outputDir => "output-dir"
  | trace => "trace"
  | maxSteps => "max-steps"
  | help => "help"
  | version => "version"

def short? : Flag → Option Char
  | verbose => some 'v'
  | outputDir => some 'o'
  | help => some 'h'
  | version => some 'V'
  | config | trace | maxSteps => none

def hasValue : Flag → Bool
  | config | outputDir | maxSteps => true
  | verbose | trace | help | version => false

/-- The flags before a verb, or behind one, as help lists them. -/
def allowed : Option Verb → List Flag
  | none => [config, verbose, help, version]
  | some .compile => [config, outputDir, verbose, help]
  | some .execute => [config, trace, maxSteps, verbose, help]
  | some .dump => [config, verbose, help]

end Flag

/-- What a command line asks for. -/
inductive Task where
  /-- Compile sources into a directory, if one is given. -/
  | compile (sources : List String) (outputDir : Option String)
  /-- Link modules and run them, perhaps with a bound of its own. -/
  | execute (modules : List String) (trace : Bool) (maxSteps : Option Nat)
  /-- List a module. -/
  | dump (module : String)
  deriving DecidableEq, Repr

/-- A task, and the configuration file to use for it. -/
structure Invocation where
  config : Option String
  task : Task
  deriving DecidableEq, Repr

/-- Why a command line is not read to its end. -/
inductive Stop where
  | misuse
  /-- Help on all verbs or on one. -/
  | help (verb : Option Verb)
  /-- Help on how to get help. -/
  | helpOnHelp
  | version
  deriving DecidableEq, Repr

/-- What has been read of a command line. -/
structure Draft where
  verb : Option Verb := none
  /-- The flags given since the verb, or since the start. -/
  given : List Flag := []
  config : Option String := none
  outputDir : Option String := none
  trace : Bool := false
  maxSteps : Option Nat := none
  operands : List String := []
  deriving DecidableEq, Repr

namespace Draft

/-- Note that a flag is given, which all but `verbose` may be only once. -/
def note (d : Draft) (f : Flag) : Except Stop Draft :=
  if f != .verbose && d.given.contains f then .error .misuse
  else .ok { d with given := f :: d.given }

/-- Give a flag that has no value. -/
def raise (d : Draft) (f : Flag) : Except Stop Draft :=
  match f with
  | .help => .error (.help d.verb)
  | .version => .error .version
  | .trace => do return { ← d.note f with trace := true }
  | _ => d.note f

/-- A path, which is not empty. -/
def path (text : String) : Except Stop String :=
  if text == "" then .error .misuse else .ok text

/-- A 64-bit count in base ten, with an optional plus sign. -/
def count (text : String) : Except Stop Nat :=
  let digits := match text.toList with
    | '+' :: cs => cs
    | cs => cs
  let value := Nat.ofDigitChars 10 digits 0
  if !digits.isEmpty && digits.all Char.isDigit && value < UInt64.size then .ok value
  else .error .misuse

/-- Give a flag its value. -/
def assign (d : Draft) (f : Flag) (value : String) : Except Stop Draft := do
  let d ← d.note f
  match f with
  | .config => return { d with config := some (← path value) }
  | .outputDir => return { d with outputDir := some (← path value) }
  | .maxSteps => return { d with maxSteps := some (← count value) }
  | _ => .error .misuse

/-- Give an operand. Before the verb there are none, and only one is listed at a time. -/
def operand (d : Draft) (text : String) : Except Stop Draft := do
  let text ← path text
  match d.verb with
  | none => .error .misuse
  | some .dump => if d.operands.isEmpty then .ok { d with operands := [text] } else .error .misuse
  | some _ => .ok { d with operands := d.operands ++ [text] }

/-- Read letters of short flags. The first that has a value takes the rest for it; if nothing is
left, it still waits for one. -/
def letters (d : Draft) : List Char → Except Stop (Draft × Option Flag)
  | [] => .ok (d, none)
  | c :: cs =>
    match (Flag.allowed d.verb).find? (·.short? == some c) with
    | none => .error .misuse
    | some f =>
      if f.hasValue then
        match cs with
        | [] => .ok (d, some f)
        | '=' :: value => do return (← d.assign f (String.ofList value), none)
        | value => do return (← d.assign f (String.ofList value), none)
      else
        match d.raise f with
        | .error stop => .error stop
        | .ok d => letters d cs

/-- Read a long flag, with its value behind an equals sign or still to come. -/
def word (d : Draft) (text : List Char) : Except Stop (Draft × Option Flag) :=
  let name := String.ofList (text.takeWhile (· != '='))
  match (Flag.allowed d.verb).find? (·.long == name), text.dropWhile (· != '=') with
  | none, _ => .error .misuse
  | some f, [] => if f.hasValue then .ok (d, some f) else do return (← d.raise f, none)
  | some f, _ :: value =>
    if f.hasValue then do return (← d.assign f (String.ofList value), none) else .error .misuse

/-- The end of a command line: there is a verb, and it has an operand. -/
def finish (d : Draft) : Except Stop Invocation :=
  match d.verb, d.operands with
  | some .compile, source :: sources =>
    .ok ⟨d.config, .compile (source :: sources) d.outputDir⟩
  | some .execute, module :: modules =>
    .ok ⟨d.config, .execute (module :: modules) d.trace d.maxSteps⟩
  | some .dump, module :: _ => .ok ⟨d.config, .dump module⟩
  | _, _ => .error .misuse

end Draft

/-- What the arguments behind `help` ask for. -/
def helpStop : List String → Stop
  | [] => .help none
  | ["help"] => .helpOnHelp
  | [name] =>
    match Verb.ofName? name with
    | some verb => .help (some verb)
    | none => .misuse
  | _ => .misuse

/-- A flag whose value is not settled yet. -/
inductive Pending where
  | nothing
  /-- The value is still to come. -/
  | needed (flag : Flag)
  /-- The value has come, and has not been judged. -/
  | held (flag : Flag) (value : String)
  deriving DecidableEq, Repr

namespace Pending

/-- What `letters` and `word` leave open. -/
def ofFlag : Option Flag → Pending
  | some f => needed f
  | none => nothing

/-- Give the flag its value. -/
def settle (d : Draft) : Pending → Except Stop Draft
  | nothing => .ok d
  | needed _ => .error .misuse
  | held f value => d.assign f value

end Pending

/-- What one argument is. -/
inductive Argument where
  /-- The end of the flags. -/
  | divider
  /-- A long flag without its hyphens. -/
  | word (text : List Char)
  /-- Short flags without their hyphen. -/
  | letters (text : List Char)
  | plain
  deriving DecidableEq, Repr

def Argument.ofString (arg : String) : Argument :=
  match arg.toList with
  | ['-', '-'] => .divider
  | '-' :: '-' :: text => .word text
  | '-' :: c :: text => .letters (c :: text)
  | _ => .plain

/-- Read arguments, with what is pending from those before. -/
def readArguments (d : Draft) (pending : Pending) : List String → Except Stop Invocation
  | [] => do (← pending.settle d).finish
  | arg :: args =>
    match pending, Argument.ofString arg with
    | .needed f, .plain => readArguments d (.held f arg) args
    | .needed _, _ => .error .misuse
    | pending, .divider => do
      let d ← pending.settle d
      (← args.foldlM Draft.operand d).finish
    | pending, .word text =>
      match pending.settle d >>= (·.word text) with
      | .error stop => .error stop
      | .ok (d, waiting) => readArguments d (.ofFlag waiting) args
    | pending, .letters text =>
      match pending.settle d >>= (·.letters text) with
      | .error stop => .error stop
      | .ok (d, waiting) => readArguments d (.ofFlag waiting) args
    | pending, .plain =>
      if d.verb.isNone && arg == "help" then .error (helpStop args)
      else
        match (if d.verb.isNone then Verb.ofName? arg else none), pending.settle d with
        | some verb, .ok d => readArguments { d with verb := some verb, given := [] } .nothing args
        | some verb, .error stop =>
          match readArguments { d with verb := some verb, given := [] } .nothing args with
          | .error first => .error first
          | .ok _ => .error stop
        | none, .error stop => .error stop
        | none, .ok d =>
          match d.operand arg with
          | .error stop => .error stop
          | .ok d => readArguments d .nothing args

/-- Read a command line. -/
def Invocation.ofArguments (args : List String) : Except Stop Invocation :=
  readArguments {} .nothing args

end RegLisp.Command
