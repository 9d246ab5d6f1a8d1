import RegLisp.Command.Arguments

/-!
# Help texts

What the program says of itself: its version, its verbs and their options, in columns.
-/

namespace RegLisp.Command

/-- The name that the program goes by. -/
def programName : String := "lilium"

def versionText : String := s!"{programName} 0.1.0\n"

def Verb.about : Verb → String
  | compile => "Compile source files, one module file per source"
  | execute => "Link module files in the given order and run the first one's entry section"
  | dump => "Print a module file as assembly text"

/-- How the operands of a verb are written. -/
def Verb.operandText : Verb → String
  | compile => "<SOURCES>..."
  | execute => "<MODULES>..."
  | dump => "<MODULE>"

namespace Flag

def about : Flag → String
  | config => s!"Configuration file (default: ./{programName}.toml, then the user config directory)"
  | verbose => "Raise the log level (-v debug, -vv trace)"
  | outputDir => "Directory for the module files (overrides compiler.output_dir)"
  | trace => "Trace every executed instruction and call"
  | maxSteps => "Instruction budget, 0 for unlimited (overrides vm.max_steps)"
  | help => "Print help"
  | version => "Print version"

/-- What follows the name of a flag. -/
def valueText : Flag → String
  | config => " <FILE>"
  | outputDir => " <DIR>"
  | maxSteps => " <N>"
  | verbose => "..."
  | trace | help | version => ""

/-- How a flag is written, in both forms if it has two. -/
def text (f : Flag) : String :=
  let short := match f.short? with
    | some c => s!"-{c}, "
    | none => "    "
  s!"{short}--{f.long}{f.valueText}"

end Flag

/-- Rows of two columns, the second of which starts two places behind the longest first one. -/
def columns (rows : List (String × String)) : String :=
  let width := (rows.map (·.1.length)).foldl max 0
  String.join (rows.map fun (left, right) =>
    let gap := String.ofList (List.replicate (width - left.length) ' ')
    s!"  {left}{gap}  {right}\n")

/-- What the verb for help is for. -/
def helpAbout : String := "Print this message or the help of the given subcommand(s)"

def optionsText (verb : Option Verb) : String :=
  "\nOptions:\n" ++ columns ((Flag.allowed verb).map fun f => (f.text, f.about))

def helpText : Option Verb → String
  | none =>
    let verbs := [Verb.compile, Verb.execute, Verb.dump].map fun v => (v.name, v.about)
    s!"Register-machine compiler, linker and VM\n\nUsage: {programName} [OPTIONS] <COMMAND>\n" ++
      "\nCommands:\n" ++ columns (verbs ++ [("help", helpAbout)]) ++ optionsText none
  | some verb =>
    s!"{verb.about}\n\nUsage: {programName} {verb.name} [OPTIONS] {verb.operandText}\n" ++
      "\nArguments:\n" ++ columns [(verb.operandText, "")] ++ optionsText (some verb)

def helpOnHelpText : String :=
  s!"{helpAbout}\n\nUsage: {programName} help [COMMAND]...\n" ++
    "\nArguments:\n" ++ columns [("[COMMAND]...", "Print help for the subcommand(s)")]

/-- What is said on arguments that make no command line. -/
def misuseText : String :=
  s!"error: invalid arguments\n\nUsage: {programName} [OPTIONS] <COMMAND>\n\n" ++
    "For more information, try '--help'.\n"

end RegLisp.Command
