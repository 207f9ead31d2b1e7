import Unmarshal.Toml.Scan

/-!
# Texts of a TOML document

Blanks, line ends and comments, the four kinds of string, and keys. Control characters other than
the tab stand in none of them.
-/
namespace Unmarshal.Toml

open Scan

/-- Blanks within a line. -/
def isSpace (c : Char) : Bool := c == ' ' || c == '\t'

/-- Characters of a comment, and, but for its quote, of a string without escapes. -/
def isPlain (c : Char) : Bool := c == '\t' || (32 ≤ c.toNat && c.toNat != 127)

def spaces : Scan Unit := do
  let _ ← run isSpace

/-- A line end: a line feed, with or without a carriage return before it. -/
def newline : Scan Unit := chars ['\n'] <|> chars ['\r', '\n']

def comment : Scan Unit := do
  char '#'
  let _ ← run isPlain

/-- What may stand between the values of an array: blanks, line ends, and comments with theirs. -/
def gap : Scan Unit := do
  let _ ← many ((do let _ ← run1 isSpace) <|> newline <|> (do comment; newline))

/-- A character by its code point in a number of hexadecimal digits. -/
def codePoint (digits : Nat) : Scan (List Char) := do
  let n := numeral 16 (← count isHexDigit digits)
  if n.isValidChar then pure [Char.ofNat n] else failure

/-- What follows the backslash of an escape. -/
def escape : Scan (List Char) := do
  match ← satisfy fun _ => true with
  | 'b' => pure ['\x08']
  | 't' => pure ['\t']
  | 'n' => pure ['\n']
  | 'f' => pure ['\x0c']
  | 'r' => pure ['\r']
  | '"' => pure ['"']
  | '\\' => pure ['\\']
  | 'u' => codePoint 4
  | 'U' => codePoint 8
  | _ => failure

/-- A run of plain characters or an escape. -/
def basicPiece : Scan (List Char) :=
  run1 (fun c => isPlain c && c != '"' && c != '\\') <|> (do char '\\'; escape)

/-- A run of plain characters, in a string without escapes. -/
def literalPiece : Scan (List Char) := run1 fun c => isPlain c && c != '\''

def lineString (quote : Char) (piece : Scan (List Char)) : Scan String := do
  char quote
  let pieces ← many piece
  char quote
  pure (String.ofList pieces.flatten)

def basicString : Scan String := lineString '"' basicPiece

def literalString : Scan String := lineString '\'' literalPiece

/-- A backslash at the end of a line takes the line end and all blanks that follow out of the
string. -/
def continuation : Scan (List Char) := do
  char '\\'
  spaces
  newline
  let _ ← many ((do let _ ← run1 isSpace) <|> newline)
  pure []

/-- A string over several lines. A line end right after the opening quotes is no part of it, up to
two quotes may stand together anywhere in it, and so before the closing three. -/
def blockString (quote : Char) (piece : Scan (List Char)) : Scan String := do
  chars [quote, quote, quote]
  let _ ← maybe newline
  let lineEnd : Scan (List Char) := do newline; pure ['\n']
  let quotes : Scan (List Char) := do
    let qs ← run1 (· == quote)
    ensure (qs.length ≤ 2)
    pure qs
  let pieces ← many (piece <|> lineEnd <|> quotes)
  let closing ← run (· == quote)
  ensure (3 ≤ closing.length && closing.length ≤ 5)
  pure (String.ofList (pieces.flatten ++ closing.drop 3))

def string : Scan String :=
  blockString '"' (continuation <|> basicPiece) <|> basicString <|>
    blockString '\'' literalPiece <|> literalString

/-- A key: the keys of the tables on the way, and the last one. -/
structure Key where
  path : List String
  last : String
deriving DecidableEq, Repr

def keyPart : Scan String :=
  basicString <|> literalString <|>
    (String.ofList <$> run1 fun c => c.isAlphanum || c == '-' || c == '_')

/-- How many parts a key, and how many levels nested values, have to stay below. -/
def depthLimit : Nat := 80

/-- Parts of a key, with dots between them and blanks around each. -/
def key : Scan Key := do
  let parts ← separated (do spaces; let part ← keyPart; spaces; pure part) (char '.')
  ensure (parts.length < depthLimit)
  match parts.getLast? with
  | some last => pure ⟨parts.dropLast, last⟩
  | none => failure

end Unmarshal.Toml
