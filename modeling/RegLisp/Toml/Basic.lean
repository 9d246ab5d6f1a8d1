/-!
# Configuration trees

The tree that a TOML document denotes. Tables remember how they came about, because that decides
what a document may still add to them.
-/

namespace RegLisp.Toml

/-- How a table came about. -/
inductive TableKind where
  /-- Written in braces. -/
  | inline
  /-- Opened by a header of its own. -/
  | header
  /-- On the way to a table that has a header. -/
  | implied
  /-- By a key with dots. -/
  | dotted
  deriving DecidableEq, Repr

/-- A value of a document. Floats and dates are recognized, and their values are not kept. -/
inductive Node where
  | string (text : String)
  | integer (value : Int)
  | float
  | boolean (value : Bool)
  | date
  | array (items : List Node)
  | table (kind : TableKind) (entries : List (String × Node))
  /-- The tables opened by headers in double brackets. -/
  | tables (items : List (List (String × Node)))

/-- The entries of a table, in order. -/
abbrev Entries := List (String × Node)

namespace Entries

def get? (entries : Entries) (key : String) : Option Node := entries.lookup key

/-- Give a present key another value. -/
def set (entries : Entries) (key : String) (node : Node) : Entries :=
  entries.map fun entry => if entry.1 == key then (key, node) else entry

end Entries

/-- Whether a path may go through a table. A header may not reach into braces, and a key with dots
only into tables that have no header either. -/
def TableKind.admits (byKey : Bool) : TableKind → Bool
  | inline => false
  | header => !byKey
  | implied | dotted => true

/-- Change the entries of the table that a path leads to, and make the tables that are missing on
the way. A list of tables stands for its last one. -/
def Entries.update (byKey : Bool) (f : TableKind → Entries → Option Entries) :
    List String → TableKind → Entries → Option Entries
  | [], kind, entries => f kind entries
  | key :: path, _, entries =>
    match entries.get? key with
    | none =>
      let kind : TableKind := if byKey then .dotted else .implied
      (update byKey f path kind []).map fun inner => entries ++ [(key, .table kind inner)]
    | some (.table kind inner) =>
      if kind.admits byKey then
        (update byKey f path kind inner).map fun inner => entries.set key (.table kind inner)
      else none
    | some (.tables items) =>
      items.getLast?.bind fun last =>
        (update byKey f path .header last).map fun last =>
          entries.set key (.tables (items.dropLast ++ [last]))
    | some _ => none

/-- Add a value under a key with dots. No key is given twice, and only a table made by such keys
takes more of them. -/
def Entries.insert (kind : TableKind) (entries : Entries) (path : List String) (key : String)
    (node : Node) : Option Entries :=
  entries.update true (fun kind entries =>
    if (!path.isEmpty && kind != .dotted) || (entries.get? key).isSome then none
    else some (entries ++ [(key, node)])) path kind

/-- Open a table by its header. A table has one header at most. -/
def Entries.openTable (entries : Entries) (path : List String) (key : String) : Option Entries :=
  entries.update false (fun _ entries =>
    match entries.get? key with
    | none => some (entries ++ [(key, .table .header [])])
    | some (.table .implied inner) => some (entries.set key (.table .header inner))
    | some _ => none) path .header

/-- Open one more of a list of tables by its header. -/
def Entries.openItem (entries : Entries) (path : List String) (key : String) : Option Entries :=
  entries.update false (fun _ entries =>
    match entries.get? key with
    | none => some (entries ++ [(key, .tables [[]])])
    | some (.tables items) => some (entries.set key (.tables (items ++ [[]])))
    | some _ => none) path .header

end RegLisp.Toml
