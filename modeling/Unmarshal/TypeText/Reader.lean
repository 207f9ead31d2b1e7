import Unmarshal.Shape.Basic
import Unmarshal.TypeText.ReadError
import Unmarshal.TypeText.Token

/-!
# Reading a type expression

The reader takes one token at a time. Forms that wait for a type to be complete stand on a stack:
a completed type closes every pointer and sequence above the next parenthesis or field group.
A token that fails the reading does so whatever follows it.
-/
namespace Unmarshal.TypeText

open Text

/-- A form that has been opened and still needs a type. -/
inductive Frame where
  | pointer
  | elements (extent : Extent)
  | parens
  | group (fields : List (Field Shape)) (names : List (String × Span))
deriving Repr

/-- What the next token is for. A record under way carries the fields it has so far, and a group
the names that share the type to come. -/
inductive Awaiting where
  | type
  | member (name : String) (span : Span)
  | extent (bracket : Span)
  | closingBracket (length : UInt64)
  | openingBrace
  | entry (fields : List (Field Shape))
  | nextName (fields : List (Field Shape)) (names : List (String × Span))
  | commaOrType (fields : List (Field Shape)) (names : List (String × Span))
  | groupEnd (fields : List (Field Shape))
  | closingParen (shape : Shape)
  | nothing (shape : Shape)
deriving Repr

/-- A reader between two tokens. After a name it is open whether a dot makes it a qualified one. -/
inductive State where
  | at (awaiting : Awaiting) (frames : List Frame)
  | afterName (name : String) (span : Span) (frames : List Frame)
deriving Repr

def State.start : State := .at .type []

/-- The effect of a token: it is taken, or the type was complete before it. -/
inductive Progress where
  | taken (state : State)
  | complete (shape : Shape)
deriving Repr

private def unexpected (expected : Expectation) (token : Token) : ReadError :=
  ⟨.unexpectedToken expected token.lexeme.text, token.span⟩

/-- Type constructors of the target language that have no shape. -/
def foreignWords : List String := ["map", "chan", "func", "interface"]

/-- Adds a field for every name of a group. A name that the record has already is an error at the
later of its two places. -/
def addGroup (fields : List (Field Shape)) :
    List (String × Span) → Shape → Except ReadError (List (Field Shape))
  | [], _ => .ok fields
  | (name, span) :: names, shape =>
    if fields.any fun f => f.name == name then .error ⟨.duplicateField name, span⟩
    else addGroup (fields ++ [⟨name, shape⟩]) names shape

/-- Hands a complete type to the forms that wait for it. -/
def close (shape : Shape) : List Frame → Except ReadError (Awaiting × List Frame)
  | [] => .ok (.nothing shape, [])
  | .pointer :: frames => close (.optional shape) frames
  | .elements extent :: frames => close (.sequence shape extent) frames
  | .parens :: frames => .ok (.closingParen shape, frames)
  | .group fields names :: frames =>
    match addGroup fields names shape with
    | .ok fields => .ok (.groupEnd fields, frames)
    | .error e => .error e

/-- The reader after a complete type. -/
def closed (shape : Shape) (frames : List Frame) : Except ReadError State :=
  match close shape frames with
  | .ok (awaiting, frames) => .ok (.at awaiting frames)
  | .error e => .error e

/-- The length that a number stands for: decimal digits only, below 2^64. -/
def length? (text : String) : Option UInt64 :=
  if text.toList.all Char.isDigit then
    let n := text.toList.foldl (fun n d => 10 * n + (d.toNat - 48)) 0
    if n < UInt64.size then some (UInt64.ofNat n) else none
  else none

/-- Takes the first token of a type. -/
def openType (frames : List Frame) (token : Token) : Except ReadError State :=
  match token.lexeme with
  | .mark '*' => .ok (.at .type (.pointer :: frames))
  | .mark '[' => .ok (.at (.extent token.span) frames)
  | .mark '(' => .ok (.at .type (.parens :: frames))
  | .word word =>
    if word = "struct" then .ok (.at .openingBrace frames)
    else if word ∈ foreignWords then .error ⟨.unrecognizedShape (word ++ " type"), token.span⟩
    else .ok (.afterName word token.span frames)
  | _ => .error (unexpected .type token)

/-- Takes the token after an opening bracket. -/
def openSequence (bracket : Span) (frames : List Frame) (token : Token) : Except ReadError State :=
  match token.lexeme with
  | .mark ']' => .ok (.at .type (.elements .dynamic :: frames))
  | .number text =>
    match length? text with
    | some length => .ok (.at (.closingBracket length) frames)
    | none => .error ⟨.invalidLength text, token.span⟩
  | lexeme => .error ⟨.invalidLength lexeme.text, bracket.merge token.span⟩

/-- Takes a token where its use is known. -/
def take (awaiting : Awaiting) (frames : List Frame) (token : Token) :
    Except ReadError Progress :=
  match awaiting with
  | .type => (openType frames token).map .taken
  | .member name _ =>
    match token.lexeme with
    | .word member => (closed (.named (name ++ "." ++ member)) frames).map .taken
    | _ => .error (unexpected .qualifiedName token)
  | .extent bracket => (openSequence bracket frames token).map .taken
  | .closingBracket length =>
    if token.lexeme = .mark ']' then .ok (.taken (.at .type (.elements (.fixed length) :: frames)))
    else .error (unexpected .closingBracket token)
  | .openingBrace =>
    if token.lexeme = .mark '\x7b' then .ok (.taken (.at (.entry []) frames))
    else .error (unexpected .openingBrace token)
  | .entry fields =>
    match token.lexeme with
    | .mark '\x7d' => (closed (.record fields) frames).map .taken
    | .mark ';' => .ok (.taken (.at (.entry fields) frames))
    | .word name => .ok (.taken (.at (.commaOrType fields [(name, token.span)]) frames))
    | _ => .error (unexpected .fieldName token)
  | .nextName fields names =>
    match token.lexeme with
    | .word name => .ok (.taken (.at (.commaOrType fields (names ++ [(name, token.span)])) frames))
    | _ => .error (unexpected .fieldName token)
  | .commaOrType fields names =>
    if token.lexeme = .mark ',' then .ok (.taken (.at (.nextName fields names) frames))
    else (openType (.group fields names :: frames) token).map .taken
  | .groupEnd fields =>
    match token.lexeme with
    | .mark ';' => .ok (.taken (.at (.entry fields) frames))
    | .mark '\x7d' => (closed (.record fields) frames).map .taken
    | _ => .error (unexpected .fieldEnd token)
  | .closingParen shape =>
    if token.lexeme = .mark ')' then (closed shape frames).map .taken
    else .error (unexpected .closingParen token)
  | .nothing shape => .ok (.complete shape)

/-- Takes a token. One that is not a dot shows that the name before it was a whole type. -/
def State.step (token : Token) : State → Except ReadError Progress
  | .at awaiting frames => take awaiting frames token
  | .afterName name span frames =>
    if token.lexeme = .mark '.' then .ok (.taken (.at (.member name span) frames))
    else
      match close (.named name) frames with
      | .ok (awaiting, frames) => take awaiting frames token
      | .error e => .error e

/-- The outcome of a text that ends, at byte `stop`, where a token might follow. -/
def finish (stop : Nat) : Awaiting → Except ReadError Shape
  | .nothing shape => .ok shape
  | .member _ span => .error ⟨.unexpectedEnd .qualifiedName, span⟩
  | .type | .commaOrType .. => missing .type
  | .extent _ => missing .lengthOrBracket
  | .closingBracket _ => missing .closingBracket
  | .openingBrace => missing .openingBrace
  | .entry _ | .nextName .. => missing .fieldName
  | .groupEnd _ => missing .closingBrace
  | .closingParen _ => missing .closingParen
where
  /-- The error at the end of the text. -/
  missing (expected : Expectation) : Except ReadError Shape :=
    .error ⟨.unexpectedEnd expected, .point stop⟩

def State.finish (stop : Nat) : State → Except ReadError Shape
  | .at awaiting _ => TypeText.finish stop awaiting
  | .afterName name _ frames =>
    match close (.named name) frames with
    | .ok (awaiting, _) => TypeText.finish stop awaiting
    | .error e => .error e

/-- Reads one type and returns it with the tokens that follow it. -/
def run (stop : Nat) : State → List Token → Except ReadError (Shape × List Token)
  | state, [] => (state.finish stop).map fun shape => (shape, [])
  | state, token :: tokens =>
    match state.step token with
    | .ok (.taken next) => run stop next tokens
    | .ok (.complete shape) => .ok (shape, token :: tokens)
    | .error e => .error e

def trimEnd (cs : List Char) : List Char := (cs.reverse.dropWhile isBlank).reverse

/-- Reads a text as exactly one type. -/
def read (text : String) : Except ReadError Shape :=
  let stop := byteLength text.toList
  match run stop .start (tokens text) with
  | .ok (shape, []) => .ok shape
  | .ok (_, token :: _) =>
    let rest := dropBytes token.span.start text.toList
    .error ⟨.trailingInput (String.ofList (trimEnd rest)), ⟨token.span.start, stop⟩⟩
  | .error e => .error e

end Unmarshal.TypeText
