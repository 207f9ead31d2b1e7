import Unmarshal.Text.Alphabetic
import Unmarshal.Text.Numeric

/-!
# Character classes

The classes by which a type expression is cut into tokens: blanks separate, words start with an
alphabetic character or an underscore, and the later characters of a word may be numeric too.
-/
namespace Unmarshal.Text

/-- Membership of a character in a table of inclusive ranges. -/
def inRanges (ranges : List (Nat × Nat)) (c : Char) : Bool :=
  ranges.any fun r => decide (r.1 ≤ c.toNat) && decide (c.toNat ≤ r.2)

/-- First and last code point of every maximal run of blanks (the property White_Space). -/
def blankRanges : List (Nat × Nat) := [
  (0x9, 0xD), (0x20, 0x20), (0x85, 0x85), (0xA0, 0xA0), (0x1680, 0x1680), (0x2000, 0x200A),
  (0x2028, 0x2029), (0x202F, 0x202F), (0x205F, 0x205F), (0x3000, 0x3000)]

/-- Blanks separate tokens and have no other meaning. -/
def isBlank (c : Char) : Bool := inRanges blankRanges c

/-- Characters with the property Alphabetic. -/
def isAlphabetic (c : Char) : Bool := inRanges alphabeticRanges c

/-- Decimal digits of every script, letter numbers and other numbers. -/
def isNumeric (c : Char) : Bool := inRanges numericRanges c

/-- A word starts with an alphabetic character or an underscore. -/
def startsWord (c : Char) : Bool := c == '_' || isAlphabetic c

/-- A word goes on with alphabetic and numeric characters and underscores. -/
def continuesWord (c : Char) : Bool := startsWord c || isNumeric c

/-- A number goes on with ASCII letters and digits and underscores; whether it is a length is
decided where a length is awaited. -/
def continuesNumber (c : Char) : Bool := c.isAlphanum || c == '_'

theorem continuesWord_of_startsWord {c : Char} (h : startsWord c = true) :
    continuesWord c = true := by
  simp [continuesWord, h]

end Unmarshal.Text
