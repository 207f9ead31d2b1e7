import Unmarshal.Json.Basic
import Unmarshal.Toml.Text

/-!
# Tables of a TOML document

A table remembers how it came to be, which decides who may add to it: a header may open a table
once, dotted keys add only to tables that dotted keys made, and a value that was written in place
is complete. An array of tables grows by headers, and a path through it leads to its newest table.
-/
namespace Unmarshal.Toml

/-- How a table came to be: by a header of its own, on the way of a longer header, or by a dotted
key. -/
inductive Making where
  | header
  | passing
  | dotted
deriving DecidableEq, Repr

/-- What a key holds. Of an array of tables the newest one stands apart. -/
inductive Node where
  | value (value : Json)
  | table (making : Making) (entries : List (String × Node))
  | tables (newest : List (String × Node)) (earlier : List (List (String × Node)))
deriving Inhabited, Repr

abbrev Entries := List (String × Node)

mutual

def Node.toJson : Node → Json
  | .value value => value
  | .table _ entries => .obj (entriesToJson entries)
  | .tables newest earlier =>
    .arr ((tablesToJson earlier).reverse ++ [.obj (entriesToJson newest)])

def entriesToJson : List (String × Node) → List (String × Json)
  | [] => []
  | (key, node) :: rest => (key, node.toJson) :: entriesToJson rest

def tablesToJson : List (List (String × Node)) → List Json
  | [] => []
  | entries :: rest => .obj (entriesToJson entries) :: tablesToJson rest

end

namespace Entries

/-- Changes what a key holds; a new key goes to the end. -/
def alter (key : String) (change : Option Node → Option Node) : Entries → Option Entries
  | [] => (change none).map fun node => [(key, node)]
  | (k, node) :: rest =>
    if k = key then (change (some node)).map fun node => (k, node) :: rest
    else (alter key change rest).map fun rest => (k, node) :: rest

/-- Adds a value under a dotted key. The table it lands in has to be the one the key is written
in (`landing` at the start) or one that dotted keys made. -/
def add (landing : Bool) (last : String) (value : Json) : List String → Entries → Option Entries
  | [], entries =>
    if landing then
      entries.alter last fun
        | none => some (.value value)
        | some _ => none
    else none
  | key :: path, entries =>
    entries.alter key fun
      | none => (add true last value path []).map (.table .dotted)
      | some (.table .dotted inner) => (add true last value path inner).map (.table .dotted)
      | some (.table .passing inner) => (add false last value path inner).map (.table .passing)
      | some (.tables newest earlier) =>
        (add false last value path newest).map fun newest => .tables newest earlier
      | some (.table .header _) | some (.value _) => none

/-- Changes the table at the end of a path of headers, making tables on the way. -/
def descend (change : Entries → Option Entries) : List String → Entries → Option Entries
  | [], entries => change entries
  | key :: path, entries =>
    entries.alter key fun
      | none => (descend change path []).map (.table .passing)
      | some (.table making inner) => (descend change path inner).map (.table making)
      | some (.tables newest earlier) =>
        (descend change path newest).map fun newest => .tables newest earlier
      | some (.value _) => none

/-- Opens a table by its header. A table that headers only passed through may still be opened. -/
def openTable (key : Key) : Entries → Option Entries :=
  descend (alter key.last fun
    | none => some (.table .header [])
    | some (.table .passing inner) => some (.table .header inner)
    | some _ => none) key.path

/-- Appends an empty table to an array of tables by its header. -/
def appendTable (key : Key) : Entries → Option Entries :=
  descend (alter key.last fun
    | none => some (.tables [] [])
    | some (.tables newest earlier) => some (.tables [] (newest :: earlier))
    | some _ => none) key.path

/-- Adds the pairs of a table in order. -/
def addAll : List (Key × Json) → Entries → Option Entries
  | [], entries => some entries
  | (key, value) :: rest, entries => do
    let entries ← entries.add true key.last value key.path
    addAll rest entries

end Entries

end Unmarshal.Toml
