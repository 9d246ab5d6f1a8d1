import RegLisp.Command.Help
import RegLisp.Compile.Unit
import RegLisp.Files.Basic
import RegLisp.Image.Linker
import RegLisp.Machine.Step
import RegLisp.Module.Listing
import RegLisp.Settings
import RegLisp.Text.Control

/-!
# Commands

Tasks are carried out on a file system, in any monad. A report says what is to be printed and how
the program ends. A source that does not compile does not keep the others from being compiled.
-/

namespace RegLisp.Command

/-- What a command line comes to. -/
structure Report where
  exit : Nat := 0
  output : String := ""
  /-- The lines for the reader who looks for errors. -/
  errors : List String := []
  deriving DecidableEq, Repr

/-- The report on a failure, after other lines. -/
def Report.failure (message : String) (errors : List String := []) : Report :=
  { exit := 1, errors := errors ++ [s!"Error: {message}"] }

/-- The line of a log with a warning. -/
def warning (text : String) : String := s!"WARN {programName}::cli: {Text.showControls text}"

variable {m : Type → Type} [Monad m]

/-- The name of configuration files. -/
def configFile : String := s!"{programName}.toml"

/-- Read settings from a file. -/
def readSettings (fs : FileSystem m) (path : String) : m (Except String Settings) := do
  match ← fs.readText path with
  | .error e => return .error s!"Cannot read {path}: {e.message}"
  | .ok text => return (Settings.parse text).mapError (·.message path)

/-- The first of some paths that leads to a file. -/
def findFile (fs : FileSystem m) : List String → m (Option String)
  | [] => return none
  | path :: paths => do
    if ← fs.isFile path then return some path else findFile fs paths

/-- Read the given configuration file. If none is given, look for one in the current directory,
then in the user's; the defaults hold if there is none either. -/
def loadSettings (fs : FileSystem m) (userDir given : Option String) :
    m (Except String Settings) := do
  match given with
  | some path => readSettings fs path
  | none =>
    let user := userDir.map fun dir => Path.join (Path.join dir programName) configFile
    match ← findFile fs (configFile :: user.toList) with
    | some path => readSettings fs path
    | none => return .ok {}

/-- Compile one source into its module file. -/
def compileFile (fs : FileSystem m) (outputDir : Option String) (source : String) :
    m (Except String Unit) := do
  match ← fs.readText source with
  | .error e => return .error s!"{source}: {e.message}"
  | .ok text =>
    match compileSource (Path.moduleName source) text with
    | .error e => return .error s!"{source}: {e.message}"
    | .ok unit =>
      let path := Path.modulePath outputDir source
      let directory := Path.directory path
      let made ← if directory == "" then pure (.ok ()) else fs.makeDirectories directory
      match made with
      | .error e => return .error s!"{directory}: {e.message}"
      | .ok () => return (← fs.write path unit.bytes).mapError fun e => s!"{path}: {e.message}"

/-- Compile sources, and collect the messages on those that fail. -/
def compileFiles (fs : FileSystem m) (outputDir : Option String) :
    List String → m (List String)
  | [] => return []
  | source :: sources => do
    let result ← compileFile fs outputDir source
    let messages ← compileFiles fs outputDir sources
    match result with
    | .error message => return message :: messages
    | .ok () => return messages

/-- Read a module file, whether it is there or not. -/
def readModule (fs : FileSystem m) (path : String) : m ModuleFile := do
  let contents ← fs.read path
  return ⟨path, Path.moduleName path, contents.mapError FileError.message⟩

/-- Load, link and run module files. -/
def executeFiles (limits : Limits) (files : List ModuleFile) : Except String Int64 := do
  let modules ← (loadModules files).mapError fun e => s!"Load error: {e.message}"
  let image ← (({} : Linker).link modules).1.mapError fun e => s!"Link error: {e.message}"
  match image.run limits Machine.ample with
  | some result => result.mapError fun fault => s!"Runtime error: {fault.message}"
  | none => .error "Runtime error: The run does not end"

/-- Carry out a task. -/
def Task.run (fs : FileSystem m) (settings : Settings) : Task → m Report
  | .compile sources outputDir => do
    let messages ← compileFiles fs (outputDir.or settings.outputDir) sources
    if messages.isEmpty then return {}
    else return .failure s!"{messages.length} source file(s) failed to compile" messages
  | .execute paths trace maxSteps => do
    let limits := { settings.limits with
      trace := settings.limits.trace || trace
      maxSteps := maxSteps.getD settings.limits.maxSteps }
    let warnings := (Path.repeated paths).map fun path => warning s!"{path} is listed more than once"
    match executeFiles limits (← paths.mapM (readModule fs)) with
    | .ok result => return { output := s!"{result.toInt}\n", errors := warnings }
    | .error message => return .failure message warnings
  | .dump path => do
    match (← readModule fs path).load with
    | .ok module => return { output := module.listing }
    | .error e => return .failure s!"Load error: {e.message}"

/-- Carry out an invocation: first come the settings, then the task. -/
def Invocation.run (fs : FileSystem m) (userDir : Option String) (call : Invocation) :
    m Report := do
  match ← loadSettings fs userDir call.config with
  | .error message => return .failure message
  | .ok settings => call.task.run fs settings

/-- Carry out a command line. -/
def run (fs : FileSystem m) (userDir : Option String) (args : List String) : m Report :=
  match Invocation.ofArguments args with
  | .ok call => call.run fs userDir
  | .error (.help verb) => return { output := helpText verb }
  | .error .helpOnHelp => return { output := helpOnHelpText }
  | .error .version => return { output := versionText }
  | .error .misuse => return { exit := 2, errors := [misuseText] }

end RegLisp.Command
