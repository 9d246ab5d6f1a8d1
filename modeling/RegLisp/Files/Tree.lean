import RegLisp.Files.Basic

/-!
# A tree of files

A file system as a value: the files and directories below one directory, in which relative paths
start. A place in the tree is the list of names that leads to it.
-/

namespace RegLisp

/-- What stands at a place. -/
inductive Entry where
  | file (bytes : List UInt8)
  | directory
  deriving DecidableEq, Repr

/-- The places of a tree and what stands there. -/
structure Tree where
  entries : List (List String × Entry) := []
  deriving DecidableEq, Repr

namespace Tree

/-- What stands at a place. The start, the root and the directories above the start are there. -/
def entry? (t : Tree) (place : List String) : Option Entry :=
  if place == ["/"] || place.all (· == "..") then some .directory else t.entries.lookup place

def put (t : Tree) (place : List String) (entry : Entry) : Tree :=
  ⟨(place, entry) :: t.entries.filter (·.1 != place)⟩

/-- The place above another one. -/
def above (place : List String) : List String :=
  if place == ["/"] then place
  else if place.getLast?.all (· == "..") then place ++ [".."]
  else place.dropLast

/-- The longest name of an entry, in bytes. -/
def maxName : Nat := 255

/-- Follow segments from a place on. Each has to start from a directory; the last may lead to a
place where nothing stands. -/
def follow (t : Tree) : List String → List String → Except FileError (List String)
  | place, [] => .ok place
  | place, segment :: segments =>
    match t.entry? place with
    | none => .error .notFound
    | some (.file _) => .error .notDirectory
    | some .directory =>
      if Path.isVoid segment then follow t place segments
      else if segment == ".." then follow t (above place) segments
      else if maxName < segment.utf8ByteSize then .error .nameTooLong
      else follow t (place ++ [segment]) segments

/-- Where a path starts. -/
def origin (path : String) : List String := if path.startsWith "/" then ["/"] else []

/-- The place that some of the segments of a path lead to. -/
def placeOf (t : Tree) (path : String) (segments : List String) :
    Except FileError (List String) :=
  match pathError? path with
  | some e => .error e
  | none => t.follow (origin path) segments

/-- The place that a path leads to. -/
def place (t : Tree) (path : String) : Except FileError (List String) :=
  if path == "" then .error .notFound else t.placeOf path (Path.segments path)

def read (t : Tree) (path : String) : Except FileError (List UInt8) :=
  match t.place path with
  | .error e => .error e
  | .ok place =>
    match t.entry? place with
    | none => .error .notFound
    | some .directory => .error .isDirectory
    | some (.file bytes) => .ok bytes

def isFile (t : Tree) (path : String) : Bool := (t.read path).toOption.isSome

def write (t : Tree) (path : String) (bytes : List UInt8) : Except FileError Tree :=
  match t.place path with
  | .error e => .error e
  | .ok place =>
    match t.entry? place with
    | some .directory => .error .isDirectory
    | _ => .ok (t.put place (.file bytes))

/-- Make a directory, unless it is there. -/
def makeDirectory (t : Tree) (path : String) : Except FileError Tree :=
  match t.placeOf path (Path.trimEnd (Path.segments path)) with
  | .error e => .error e
  | .ok place =>
    match t.entry? place with
    | none => .ok (t.put place .directory)
    | some .directory => .ok t
    | some (.file _) => .error .alreadyExists

/-- Whether a place lies below the start. -/
def isBelow (place : List String) : Bool := !place.head?.any fun name => name == "/" || name == ".."

/-- The files below the start with their paths, in the order of the paths. -/
def files (t : Tree) : List (String × List UInt8) :=
  let files := t.entries.filterMap fun (place, entry) =>
    match entry with
    | .file bytes => if isBelow place then some (Path.ofSegments place, bytes) else none
    | .directory => none
  files.mergeSort fun a b => a.1 ≤ b.1

/-- Keep the tree unless an operation gives a new one. -/
def commit (result : Except FileError Tree) (t : Tree) : Except FileError Unit × Tree :=
  match result with
  | .ok t => (.ok (), t)
  | .error e => (.error e, t)

/-- The operations on a tree as a state. -/
def fileSystem : FileSystem (StateM Tree) where
  read path := fun t => (t.read path, t)
  isFile path := fun t => (t.isFile path, t)
  makeDirectory path := fun t => commit (t.makeDirectory path) t
  write path bytes := fun t => commit (t.write path bytes) t

end Tree

end RegLisp
