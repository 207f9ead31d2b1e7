import Unmarshal.Json.Basic

/-!
# Compact JSON text

One line without blanks. The keys of an object are written in the order of their code points, so
that a tree has one text however its entries are ordered.
-/
namespace Unmarshal.Json

private def hexDigit (n : Nat) : Char :=
  if n < 10 then Char.ofNat (48 + n) else Char.ofNat (87 + n)

/-- A quote and a backslash are escaped with a backslash, five control characters have a short
escape, the others below U+0020 are written by code point, and all else stands for itself. -/
def escaped (c : Char) : List Char :=
  if c = '"' then ['\\', '"']
  else if c = '\\' then ['\\', '\\']
  else if c = '\x08' then ['\\', 'b']
  else if c = '\t' then ['\\', 't']
  else if c = '\n' then ['\\', 'n']
  else if c = '\x0c' then ['\\', 'f']
  else if c = '\r' then ['\\', 'r']
  else if c.toNat < 32 then
    ['\\', 'u', '0', '0', hexDigit (c.toNat / 16), hexDigit (c.toNat % 16)]
  else [c]

def quoted (s : String) : String := "\"" ++ String.ofList (s.toList.flatMap escaped) ++ "\""

private def entryText (entry : String × String) : String := quoted entry.1 ++ ":" ++ entry.2

mutual

/-- The compact text of a tree. -/
def compact : Json → String
  | .null => "null"
  | .bool true => "true"
  | .bool false => "false"
  | .int n => toString n
  | .real digits => digits
  | .str s => quoted s
  | .arr items => "[" ++ ",".intercalate (compactItems items) ++ "]"
  | .obj entries =>
    "\x7b" ++ ",".intercalate
      (((compactEntries entries).mergeSort fun a b => decide (a.1 ≤ b.1)).map entryText) ++ "\x7d"

def compactItems : List Json → List String
  | [] => []
  | j :: rest => compact j :: compactItems rest

/-- The keys of an object with the compact texts of their values. -/
def compactEntries : List (String × Json) → List (String × String)
  | [] => []
  | (key, j) :: rest => (key, compact j) :: compactEntries rest

end

end Unmarshal.Json
