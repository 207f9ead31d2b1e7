import Unmarshal.Text.CharClass
import Unmarshal.Text.Span

/-!
# Tokens of a type expression

A type expression is cut into words, numbers and single marks. A token is as long as its class
allows, blanks between tokens are dropped, and every token keeps the bytes it came from.
-/
namespace Unmarshal.TypeText

open Text

/-- What a token says. -/
inductive Lexeme where
  | word (text : String)
  | number (text : String)
  | mark (char : Char)
deriving DecidableEq, Repr

def Lexeme.text : Lexeme → String
  | .word text | .number text => text
  | .mark char => String.singleton char

/-- A lexeme and the bytes it was read from. -/
structure Token where
  lexeme : Lexeme
  span : Span
deriving DecidableEq, Repr

/-- The token that starts with `c` at byte `offset` and goes on with the characters of `tail`. -/
private def longToken (make : String → Lexeme) (offset : Nat) (c : Char) (tail : List Char) :
    Token :=
  ⟨make (String.ofList (c :: tail)), ⟨offset, offset + byteLength (c :: tail)⟩⟩

/-- The tokens of the characters that start at byte `offset`. -/
def scan (offset : Nat) : List Char → List Token
  | [] => []
  | c :: cs =>
    if isBlank c then scan (offset + c.utf8Size) cs
    else if startsWord c then
      longToken .word offset c (cs.takeWhile continuesWord) ::
        scan (offset + byteLength (c :: cs.takeWhile continuesWord)) (cs.dropWhile continuesWord)
    else if c.isDigit then
      longToken .number offset c (cs.takeWhile continuesNumber) ::
        scan (offset + byteLength (c :: cs.takeWhile continuesNumber))
          (cs.dropWhile continuesNumber)
    else ⟨.mark c, ⟨offset, offset + c.utf8Size⟩⟩ :: scan (offset + c.utf8Size) cs
termination_by cs => cs.length
decreasing_by
  all_goals simp only [List.length_cons]
  · omega
  · have := (List.dropWhile_sublist continuesWord (l := cs)).length_le; omega
  · have := (List.dropWhile_sublist continuesNumber (l := cs)).length_le; omega
  · omega

def tokens (text : String) : List Token := scan 0 text.toList

end Unmarshal.TypeText
