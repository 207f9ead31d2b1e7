import Unmarshal.Code.Basic
import Unmarshal.Proofs.TypeText.Lexing

/-!
# Tokens of an expression

The text of an expression is cut into the lexemes of type expressions, the signs of operators and
string literals. A sign is as long as it can be, and a literal ends at the first quote that no
backslash stands before.
-/
namespace Unmarshal.CodeText

open Text TypeText

inductive Token where
  | plain (lexeme : Lexeme)
  | sign (op : BinaryOp)
  | literal (text : String)
deriving DecidableEq, Repr

/-- The character that an escape of one letter stands for. -/
def unescape? : Char → Option Char
  | 'a' => some '\x07'
  | 'b' => some '\x08'
  | 'f' => some '\x0c'
  | 'n' => some '\n'
  | 'r' => some '\r'
  | 't' => some '\t'
  | 'v' => some '\x0b'
  | '\\' => some '\\'
  | '"' => some '"'
  | _ => none

/-- The text of a literal whose first quote has been taken, and what is behind its last quote. A
line that ends before the literal does is refused, and so are escapes by number. -/
def readText : List Char → Option (List Char × List Char)
  | [] => none
  | '"' :: rest => some ([], rest)
  | '\n' :: _ => none
  | '\\' :: c :: rest =>
    match unescape? c, readText rest with
    | some d, some (text, rest) => some (d :: text, rest)
    | _, _ => none
  | c :: rest =>
    match readText rest with
    | some (text, rest) => some (c :: text, rest)
    | none => none

theorem length_of_readText {cs text rest : List Char} (h : readText cs = some (text, rest)) :
    rest.length < cs.length := by
  induction cs using readText.induct generalizing text rest <;>
    grind [readText]

/-- The operator whose sign starts with the character, and what is behind the sign. -/
def readSign : Char → List Char → Option (BinaryOp × List Char)
  | '=', '=' :: rest => some (.eq, rest)
  | '!', '=' :: rest => some (.ne, rest)
  | '&', '&' :: rest => some (.and, rest)
  | '|', '|' :: rest => some (.or, rest)
  | '<', rest => some (.lt, rest)
  | _, _ => none

theorem length_of_readSign {c : Char} {cs rest : List Char} {op : BinaryOp}
    (h : readSign c cs = some (op, rest)) : rest.length ≤ cs.length := by
  unfold readSign at h
  split at h <;> grind

/-- What stands between tokens. The end of a line does not: it may end a statement. -/
def separates (c : Char) : Bool := c == ' ' || c == '\t' || c == '\r'

/-- The tokens of a text. Characters that start no token are refused. -/
def scan : List Char → Option (List Token)
  | [] => some []
  | c :: cs =>
    if separates c then scan cs
    else if startsWord c then
      (scan (cs.dropWhile continuesWord)).map
        (.plain (.word (String.ofList (c :: cs.takeWhile continuesWord))) :: ·)
    else if c.isDigit then
      (scan (cs.dropWhile continuesNumber)).map
        (.plain (.number (String.ofList (c :: cs.takeWhile continuesNumber))) :: ·)
    else if c = '"' then
      match _known : readText cs with
      | some (text, rest) => (scan rest).map (.literal (String.ofList text) :: ·)
      | none => none
    else
      match _known : readSign c cs with
      | some (op, rest) => (scan rest).map (.sign op :: ·)
      | none => if c = '!' ∨ c ∈ marks then (scan cs).map (.plain (.mark c) :: ·) else none
termination_by cs => cs.length
decreasing_by
  all_goals simp only [List.length_cons]
  · omega
  · have := (List.dropWhile_sublist continuesWord (l := cs)).length_le; omega
  · have := (List.dropWhile_sublist continuesNumber (l := cs)).length_le; omega
  · have := length_of_readText _known; omega
  · have := length_of_readSign _known; omega
  · omega

end Unmarshal.CodeText
