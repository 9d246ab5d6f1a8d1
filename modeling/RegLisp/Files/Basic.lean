import RegLisp.Path

/-!
# Files

What commands need of a file system, in any monad. An operation that fails gives the reason of the
operating system.
-/

namespace RegLisp

/-- Why an operation on files fails. -/
inductive FileError where
  | notFound
  | alreadyExists
  | notDirectory
  | isDirectory
  | nameTooLong
  /-- The path has a zero in it. -/
  | zeroByte
  | notText
  | other (reason : String)
  deriving DecidableEq, Repr

namespace FileError

def message : FileError → String
  | notFound => "No such file or directory (os error 2)"
  | alreadyExists => "File exists (os error 17)"
  | notDirectory => "Not a directory (os error 20)"
  | isDirectory => "Is a directory (os error 21)"
  | nameTooLong => "File name too long (os error 36)"
  | zeroByte => "file name contained an unexpected NUL byte"
  | notText => "stream did not contain valid UTF-8"
  | other reason => reason

/-- The error with a number of the operating system, and a text for one that is not known. -/
def ofNumber (number : Nat) (reason : String) : FileError :=
  match number with
  | 2 => notFound
  | 17 => alreadyExists
  | 20 => notDirectory
  | 21 => isDirectory
  | 36 => nameTooLong
  | number => other s!"{reason} (os error {number})"

end FileError

/-- The longest path that the operating system takes, in bytes. -/
def maxPath : Nat := 4095

/-- What is wrong with a path before any file is looked at. -/
def pathError? (path : String) : Option FileError :=
  if path.toList.contains '\x00' then some .zeroByte
  else if maxPath < path.utf8ByteSize then some .nameTooLong
  else none

/-- The operations on files that commands are made of. -/
structure FileSystem (m : Type → Type) where
  read : String → m (Except FileError (List UInt8))
  /-- Whether a path leads to a file. -/
  isFile : String → m Bool
  /-- Make a directory, unless it is there. -/
  makeDirectory : String → m (Except FileError Unit)
  /-- Give a file new contents. -/
  write : String → List UInt8 → m (Except FileError Unit)

namespace FileSystem

variable {m : Type → Type} [Monad m]

/-- The contents of a file as text. -/
def readText (fs : FileSystem m) (path : String) : m (Except FileError String) := do
  match ← fs.read path with
  | .error e => return .error e
  | .ok bytes =>
    match String.fromUTF8? ⟨bytes.toArray⟩ with
    | some text => return .ok text
    | none => return .error .notText

/-- Make the directory that segments lead to, which are given backwards, and those that are missing
on the way. -/
def makePath (fs : FileSystem m) : List String → m (Except FileError Unit)
  | [] => return .ok ()
  | segment :: outer => do
    let path := Path.ofSegments (segment :: outer).reverse
    match ← fs.makeDirectory path with
    | .error .notFound =>
      match ← makePath fs outer with
      | .error e => return .error e
      | .ok () => fs.makeDirectory path
    | result => return result

/-- Make a directory and those that are missing on the way to it. -/
def makeDirectories (fs : FileSystem m) (path : String) : m (Except FileError Unit) :=
  fs.makePath (Path.trimEnd (Path.segments path)).reverse

end FileSystem

end RegLisp
