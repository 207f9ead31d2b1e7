/-!
# Scanning characters

A scanner reads some characters from the front of a list, or fails. Alternatives start again from
the same place, and a repetition ends where its item fails, so every scanner is total.
-/
namespace Unmarshal.Toml

/-- A scanner of a value. -/
abbrev Scan (α : Type) := StateT (List Char) Option α

namespace Scan

def satisfy (p : Char → Bool) : Scan Char
  | [] => none
  | c :: cs => if p c then some (c, cs) else none

def char (c : Char) : Scan Unit := do
  let _ ← satisfy (· == c)

def chars : List Char → Scan Unit
  | [] => pure ()
  | c :: cs => do
    char c
    chars cs

/-- The longest run of characters of a class, which may be empty. -/
def run (p : Char → Bool) : Scan (List Char) := fun cs => some (cs.takeWhile p, cs.dropWhile p)

/-- The longest run of characters of a class, of one at least. -/
def run1 (p : Char → Bool) : Scan (List Char) := do
  let c ← satisfy p
  let cs ← run p
  pure (c :: cs)

def done : Scan Unit
  | [] => some ((), [])
  | _ :: _ => none

/-- What a scanner reads, or nothing where it fails. -/
def maybe {α : Type} (item : Scan α) : Scan (Option α) := (some <$> item) <|> pure none

/-- Goes on only if a condition holds. -/
def ensure (condition : Bool) : Scan Unit := if condition then pure () else failure

/-- Items as long as the scanner succeeds. An item that reads no character ends the repetition. -/
def many {α : Type} (item : Scan α) (cs : List Char) : Option (List α × List Char) :=
  match item cs with
  | none => some ([], cs)
  | some (a, rest) =>
    if rest.length < cs.length then (many item rest).map fun r => (a :: r.1, r.2)
    else some ([a], rest)
termination_by cs.length

/-- Items with a separator between each and the next, of one item at least. -/
def separated {α : Type} (item : Scan α) (separator : Scan Unit) : Scan (List α) := do
  let first ← item
  let others ← many (separator *> item)
  pure (first :: others)

/-- A number of characters of a class. -/
def count (p : Char → Bool) : Nat → Scan (List Char)
  | 0 => pure []
  | n + 1 => do
    let c ← satisfy p
    let cs ← count p n
    pure (c :: cs)

end Scan

/-- The value of a digit in bases up to sixteen. -/
def digitValue (c : Char) : Nat :=
  if c.isDigit then c.toNat - 48
  else if c.toNat < 91 then c.toNat - 55
  else c.toNat - 87

/-- The number that digits stand for in a base. -/
def numeral (base : Nat) (digits : List Char) : Nat :=
  digits.foldl (fun n d => base * n + digitValue d) 0

/-- A hexadecimal digit of either case. -/
def isHexDigit (c : Char) : Bool :=
  c.isDigit || ('a' ≤ c && c ≤ 'f') || ('A' ≤ c && c ≤ 'F')

end Unmarshal.Toml
