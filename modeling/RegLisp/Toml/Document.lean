import RegLisp.Toml.Scalar

/-!
# Configuration documents

A document is a sequence of lines: pairs of a key and a value, headers of tables, comments. Arrays
may go over several lines. Nesting is bounded, so the readers of values recurse on what is left of
the text and count the depth.
-/

namespace RegLisp.Toml

/-- Nesting of values, and the parts of a key, stay below this. -/
def maxDepth : Nat := 80

/-- Skip white space, line ends and comments. -/
def skipBlank (inComment : Bool) : List Char → List Char
  | [] => []
  | '\r' :: '\n' :: cs => skipBlank false cs
  | c :: cs =>
    if c == '\n' then skipBlank false cs
    else if inComment then if isPlain c then skipBlank true cs else c :: cs
    else if isSpace c then skipBlank false cs
    else if c == '#' then skipBlank true cs
    else c :: cs

/-- The rest of a text behind the end of its line, before which a comment may stand. -/
def endLine? (cs : List Char) : Option (List Char) :=
  let cs := match skipSpace cs with
    | '#' :: cs => cs.dropWhile isPlain
    | cs => cs
  if cs.isEmpty then some [] else newline? cs

/-- Whether a character may stand in a key without quotes. -/
def isBare (c : Char) : Bool := c.isAlphanum || c == '_' || c == '-'

/-- One part of a key, with the white space around it. -/
def readPart (cs : List Char) : Option (String × List Char) := do
  let (part, rest) ← match skipSpace cs with
    | '"' :: cs => readLine '"' cs
    | '\'' :: cs => readLine '\'' cs
    | cs =>
      let part := cs.takeWhile isBare
      if part.isEmpty then none else some (String.ofList part, cs.dropWhile isBare)
  return (part, skipSpace rest)

/-- More parts of a key behind a dot each. -/
def moreParts : (fuel : Nat) → (parts : List String) → Reads (List String)
  | 0, _, _ => none
  | fuel + 1, parts, '.' :: cs =>
    match readPart cs with
    | some (part, rest) => moreParts fuel (parts ++ [part]) rest
    | none => none
  | _ + 1, parts, cs => some (parts, cs)

/-- A key: the parts before the last one, and the last one. -/
def readKey (cs : List Char) : Option ((List String × String) × List Char) := do
  let (part, rest) ← readPart cs
  let (parts, rest) ← moreParts (rest.length + 1) [part] rest
  if maxDepth ≤ parts.length then none
  return ((parts.dropLast, ← parts.getLast?), rest)

mutual

/-- A value inside as many others as `depth` says. -/
def readValue : (fuel depth : Nat) → Reads Node
  | 0, _, _ => none
  | fuel + 1, depth, cs =>
    match cs with
    | '[' :: cs =>
      if depth + 1 < maxDepth then readItems fuel (depth + 1) [] (skipBlank false cs) else none
    | '{' :: cs =>
      if depth + 1 < maxDepth then
        match skipSpace cs with
        | '}' :: cs => some (.table .inline [], cs)
        | cs => readPairs fuel (depth + 1) [] cs
      else none
    | cs => readScalar cs

/-- The items of an array up to its end. The last one may have a comma too. -/
def readItems : (fuel depth : Nat) → (items : List Node) → Reads Node
  | 0, _, _, _ => none
  | fuel + 1, depth, items, cs =>
    match cs with
    | ']' :: cs => some (.array items.reverse, cs)
    | cs =>
      match readValue fuel depth cs with
      | none => none
      | some (item, rest) =>
        match skipBlank false rest with
        | ',' :: cs => readItems fuel depth (item :: items) (skipBlank false cs)
        | ']' :: cs => some (.array (item :: items).reverse, cs)
        | _ => none

/-- The pairs of a table in braces up to its end. The last one has no comma. -/
def readPairs : (fuel depth : Nat) → (entries : Entries) → Reads Node
  | 0, _, _, _ => none
  | fuel + 1, depth, entries, cs =>
    match readKey cs with
    | some ((path, key), '=' :: cs) =>
      match readValue fuel depth (skipSpace cs) with
      | none => none
      | some (node, rest) =>
        match entries.insert .inline path key node, skipSpace rest with
        | some entries, ',' :: cs => readPairs fuel depth entries cs
        | some entries, '}' :: cs => some (.table .inline entries, cs)
        | _, _ => none
    | _ => none

end

/-- A document as far as it has been read: its tables, and the header in force. -/
structure Draft where
  root : Entries := []
  path : List String := []

/-- A pair of a key and a value on a line of its own. -/
def Draft.readPair (d : Draft) (cs : List Char) : Option (Draft × List Char) :=
  match readKey cs with
  | some ((path, key), '=' :: cs) => do
    let (node, rest) ← readValue (2 * cs.length + 2) 0 (skipSpace cs)
    let rest ← endLine? rest
    let root ← d.root.update false (fun kind entries => entries.insert kind path key node)
      d.path .header
    return ({ d with root }, rest)
  | _ => none

/-- A header on a line of its own. -/
def Draft.readHeader (d : Draft) (cs : List Char) : Option (Draft × List Char) :=
  match cs with
  | '[' :: '[' :: cs =>
    match readKey cs with
    | some ((path, key), ']' :: ']' :: rest) => do
      return ({ root := ← d.root.openItem path key, path := path ++ [key] }, ← endLine? rest)
    | _ => none
  | '[' :: cs =>
    match readKey cs with
    | some ((path, key), ']' :: rest) => do
      return ({ root := ← d.root.openTable path key, path := path ++ [key] }, ← endLine? rest)
    | _ => none
  | _ => none

/-- Read lines to the end of the text. -/
def Draft.readLines : (fuel : Nat) → Draft → List Char → Option Entries
  | 0, _, _ => none
  | fuel + 1, d, cs =>
    match skipBlank false cs with
    | [] => some d.root
    | '[' :: cs => (d.readHeader ('[' :: cs)).bind fun (d, rest) => readLines fuel d rest
    | cs => (d.readPair cs).bind fun (d, rest) => readLines fuel d rest

/-- Read a document, which may start with a byte-order mark. -/
def parse (text : String) : Option Entries :=
  let cs := match text.toList with
    | '\ufeff' :: cs => cs
    | cs => cs
  Draft.readLines (cs.length + 1) {} cs

end RegLisp.Toml
