import Unmarshal.Toml.Scalar
import Unmarshal.Toml.Table

/-!
# TOML documents

A document is a sequence of lines, each a pair, a header, a comment or nothing; it stands for the
tree that the pairs build in the tables that the headers open.
-/
namespace Unmarshal.Toml

open Scan

/-- An array of values. A comma may follow the last. -/
def array (value : Scan Json) : Scan Json := do
  char '['
  let items ← maybe do
    let items ← separated (do gap; let v ← value; gap; pure v) (char ',')
    let _ ← maybe (char ',')
    pure items
  gap
  char ']'
  pure (.arr (items.getD []))

def pair (value : Scan Json) : Scan (Key × Json) := do
  let k ← key
  char '='
  spaces
  let v ← value
  spaces
  pure (k, v)

/-- A table in place, on one line. No comma may follow the last pair. -/
def inlineTable (value : Scan Json) : Scan Json := do
  char '\x7b'
  let pairs ← maybe (separated (pair value) (char ','))
  spaces
  char '\x7d'
  match Entries.addAll (pairs.getD []) [] with
  | some entries => pure (.obj (entriesToJson entries))
  | none => failure

/-- A value with at most so many levels of arrays and tables in place. -/
def value : Nat → Scan Json
  | 0 => scalar
  | depth + 1 => array (value depth) <|> inlineTable (value depth) <|> scalar
where
  /-- A value without parts. -/
  scalar : Scan Json := (Json.str <$> string) <|> dateTime <|> float <|> integer <|> boolean

/-- What a line says. -/
inductive Line where
  | nothing
  | pair (key : Key) (value : Json)
  | table (key : Key)
  | tableItem (key : Key)
deriving Repr

def lineEnd : Scan Unit := newline <|> done

/-- A line, from its first character that is not blank to its end. -/
def line : Scan Line := do
  spaces
  let empty : Scan Line := do newline; pure .nothing
  let remark : Scan Line := do comment; lineEnd; pure .nothing
  let ended {α : Type} (item : Scan α) : Scan α := do
    let a ← item
    spaces
    let _ ← maybe comment
    lineEnd
    pure a
  let tableItem : Scan Line := ended do
    chars ['[', '[']
    let k ← key
    chars [']', ']']
    pure (.tableItem k)
  let table : Scan Line := ended do
    char '['
    let k ← key
    char ']'
    pure (.table k)
  let assignment : Scan Line := ended do
    let p ← pair (value (depthLimit - 1))
    pure (.pair p.1 p.2)
  empty <|> remark <|> tableItem <|> table <|> assignment

/-- The lines of a text, after a byte order mark if it has one. -/
def document : Scan (List Line) := do
  let _ ← maybe (char '\ufeff')
  let lines ← many line
  spaces
  done
  pure lines

/-- Carries out lines in order. Pairs go into the table that the last header opened, at the path
`current` from the root. -/
def build (current : List String) : List Line → Entries → Option Entries
  | [], root => some root
  | .nothing :: rest, root => build current rest root
  | .pair key value :: rest, root => do
    let root ← root.descend (fun table => table.add true key.last value key.path) current
    build current rest root
  | .table key :: rest, root => do
    let root ← root.openTable key
    build (key.path ++ [key.last]) rest root
  | .tableItem key :: rest, root => do
    let root ← root.appendTable key
    build (key.path ++ [key.last]) rest root

/-- The tree that a text stands for, if it is a TOML document. -/
def read (text : String) : Option Json := do
  let (lines, _) ← document text.toList
  let root ← build [] lines []
  pure (.obj (entriesToJson root))

end Unmarshal.Toml
