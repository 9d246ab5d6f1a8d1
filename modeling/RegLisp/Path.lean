/-!
# Paths

A path is text in which slashes separate segments. Empty segments and single dots stand for the
directory before them, so they count for nothing at the end of a path. The file name is the last
segment that counts, and its extension is what follows its last dot.
-/

namespace RegLisp.Path

/-- The segments between the slashes. -/
def segments (path : String) : List String := path.splitOn "/"

/-- Whether a segment leads nowhere. -/
def isVoid (segment : String) : Bool := segment == "" || segment == "."

/-- Segments up to the last one that leads somewhere. -/
def trimEnd (segments : List String) : List String := (segments.reverse.dropWhile isVoid).reverse

def ofSegments (segments : List String) : String := "/".intercalate segments

/-- The last segment that leads somewhere, unless it leads up. -/
def fileName? (path : String) : Option String :=
  (trimEnd (segments path)).getLast?.filter (· != "..")

/-- Split a file name at its last dot. A dot in front, or none, leaves no extension. -/
def splitName (name : String) : String × Option String :=
  let cs := name.toList.reverse
  let after := cs.takeWhile (· != '.')
  match cs.dropWhile (· != '.') with
  | '.' :: c :: before => (String.ofList (c :: before).reverse, some (String.ofList after.reverse))
  | _ => (name, none)

/-- The path with another extension. The old one is cut off the end; where what is left names no
file, that is all. -/
def withExtension (ext path : String) : String :=
  let old := ((fileName? path).bind fun name => (splitName name).2).getD ""
  let cut := String.ofList (path.toList.take (path.length - old.length))
  match fileName? cut with
  | none => cut
  | some name =>
    let directory := (trimEnd (segments cut)).dropLast
    ofSegments (directory ++ [s!"{(splitName name).1}.{ext}"])

/-- The path of a file in a directory. -/
def join (directory name : String) : String :=
  if directory == "" || directory.endsWith "/" then directory ++ name else s!"{directory}/{name}"

/-- The directory that a path lies in: empty for the current one. -/
def directory (path : String) : String :=
  let outer := trimEnd (trimEnd (segments path)).dropLast
  if path.startsWith "/" && outer.isEmpty then "/" else ofSegments outer

/-- What two spellings of a path have in common: the segments that lead somewhere, with a mark for
a path that starts at the root or at the current directory. -/
def components (path : String) : List String :=
  let named := (segments path).filter (!isVoid ·)
  if path.startsWith "/" then "/" :: named
  else if (segments path).head? == some "." then "." :: named
  else named

/-- The items whose component lists have come up exactly once before, in order. -/
def repeatedFrom (seen : List (List String)) : List String → List String
  | [] => []
  | path :: paths =>
    let key := components path
    let rest := repeatedFrom (key :: seen) paths
    if seen.count key == 1 then path :: rest else rest

/-- The paths given more than once, each at its second place. -/
def repeated (paths : List String) : List String := repeatedFrom [] paths

/-- The name of the module in a file: the file name without its extension. -/
def moduleName (path : String) : String :=
  match fileName? path with
  | some name => (splitName name).1
  | none => path

/-- Where the module compiled from a source goes: beside it, or into the given directory. -/
def modulePath (outputDir : Option String) (source : String) : String :=
  let file := withExtension "mod" source
  match outputDir, fileName? file with
  | some dir, some name => join dir name
  | _, _ => file

end RegLisp.Path
