import RegLisp.Command.Run

/-!
# The program

The command line on the files of the operating system.
-/

namespace RegLisp

/-- The error with a code of the operating system, which may come negated in 32 bits. -/
def errorOfCode (code : UInt32) (reason : String) : FileError :=
  .ofNumber (min code.toNat (UInt32.size - code.toNat)) reason

/-- The reason of the operating system for a failure. -/
def errorOf (e : IO.Error) : FileError :=
  match e with
  | .noFileOrDirectory _ code reason | .alreadyExists _ code reason
  | .inappropriateType _ code reason | .permissionDenied _ code reason
  | .invalidArgument _ code reason | .noSuchThing _ code reason
  | .resourceExhausted _ code reason | .otherError code reason => errorOfCode code reason
  | e => .other (toString e)

/-- The result of an action on a path, or the reason why it fails. -/
def attempt {α : Type} (path : String) (action : IO α) : IO (Except FileError α) := do
  match pathError? path with
  | some e => return .error e
  | none =>
    match ← action.toBaseIO with
    | .ok a => return .ok a
    | .error e => return .error (errorOf e)

def readHostFile (path : String) : IO (Except FileError (List UInt8)) :=
  attempt path do return (← IO.FS.readBinFile path).toList

/-- Make a directory. A failure does not count if it is there. -/
def makeHostDirectory (path : String) : IO (Except FileError Unit) := do
  match ← attempt path (IO.FS.createDir path), ← readHostFile path with
  | .error _, .error .isDirectory => return .ok ()
  | result, _ => return result

/-- The files of the operating system. -/
def hostFiles : FileSystem IO where
  read := readHostFile
  isFile path := do return (← readHostFile path).toOption.isSome
  makeDirectory := makeHostDirectory
  write path bytes := attempt path (IO.FS.writeBinFile path ⟨bytes.toArray⟩)

/-- The directory for the user's configuration files. -/
def userConfigDir : IO (Option String) := do
  let home := (← IO.getEnv "HOME").map (Path.join · ".config")
  match ← IO.getEnv "XDG_CONFIG_HOME" with
  | some dir => return if dir.startsWith "/" then some dir else home
  | none => return home

end RegLisp

/-- Carry out the command line and print the report on it. -/
def main (args : List String) : IO UInt32 := do
  let report ← RegLisp.Command.run RegLisp.hostFiles (← RegLisp.userConfigDir) args
  for line in report.errors do
    IO.eprintln line
  IO.print report.output
  return .ofNat report.exit
