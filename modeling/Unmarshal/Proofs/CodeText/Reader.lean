import Unmarshal.Proofs.CodeText.Token
import Unmarshal.Scalar
import Unmarshal.TypeText.Reader

/-!
# Reading an expression

A reader of the expressions of the target language, by its grammar and not by how expressions are
written: what follows an operand binds tightest, then what stands before it, then the operators by
their level, each to the left. Forms that wait for an operand stand on a stack; a type is handed to
the reader of type expressions lexeme by lexeme.
-/
namespace Unmarshal.CodeText

open TypeText

/-- The words of the target language that name no variable, package or field. -/
def keywords : List String :=
  ["break", "case", "chan", "const", "continue", "default", "defer", "else", "fallthrough", "for",
    "func", "go", "goto", "if", "import", "interface", "map", "package", "range", "return",
    "select", "struct", "switch", "type", "var"]

/-- The level of an operator: disjunction binds least, the comparisons most. -/
def level : BinaryOp → Nat
  | .or => 1
  | .and => 2
  | .eq | .ne | .lt => 3

def accessor? : String → Option Accessor
  | "Bool" => some .bool
  | "String" => some .string
  | "Int" => some .int
  | "Float" => some .float
  | "Type" => some .type
  | "Length" => some .length
  | "Get" => some .get
  | "Index" => some .index
  | _ => none

def absentKind? : String → Option AbsentKind
  | "TypeUndefined" => some .undefined
  | "TypeNull" => some .null
  | _ => none

/-- The value of a number in decimal digits. With zeros in front it would be one in base eight. -/
def decimal? (text : String) : Option Nat :=
  let value := Nat.ofDigitChars 10 text.toList 0
  if toString value = text then some value else none

/-- A form that has been opened and still needs an operand. -/
inductive Frame where
  | deref
  | not
  | operator (op : BinaryOp) (left : Expr)
  | parens
  | position (base : Expr)
  | arguments (value : Expr) (accessor : Accessor) (done : List Expr)
  | conversion (type : String)
  | length (type : Shape)
deriving Repr

/-- The form that a type is part of. -/
inductive TypeUse where
  | new
  | make
  | composite
deriving DecidableEq, Repr

/-- A reader between two tokens. After an operand it is open what the operand is part of. -/
inductive State where
  | operand (frames : List Frame)
  | after (value : Expr) (frames : List Frame)
  | selector (base : Expr) (frames : List Frame)
  | type (use : TypeUse) (reader : TypeText.State) (frames : List Frame)
  | braces (type : Shape) (frames : List Frame)
deriving Repr

/-- Completes the forms that wait for the operand and bind it at least as tightly as `least`. -/
def collapse (least : Nat) (value : Expr) : List Frame → Expr × List Frame
  | .deref :: frames => collapse least (.deref value) frames
  | .not :: frames => collapse least (.not value) frames
  | .operator op left :: frames =>
    if least ≤ level op then collapse least (.binary op left value) frames
    else (value, .operator op left :: frames)
  | frames => (value, frames)

/-- Ends the bracket or the argument that a complete expression stands in. -/
def close : Char → Expr × List Frame → Option State
  | ')', (value, .parens :: frames) => some (.after value frames)
  | ')', (value, .conversion type :: frames) => some (.after (.cast type value) frames)
  | ')', (value, .length type :: frames) => some (.after (.make type value) frames)
  | ')', (value, .arguments base accessor done :: frames) =>
    some (.after (.access base accessor (done ++ [value])) frames)
  | ',', (value, .arguments base accessor done :: frames) =>
    some (.operand (.arguments base accessor (done ++ [value]) :: frames))
  | ']', (value, .position base :: frames) => some (.after (.index base value) frames)
  | _, _ => none

/-- Opens the parentheses behind an operand: of a built-in function, of a conversion, or of an
accessor. -/
def openCall (frames : List Frame) : Expr → Option State
  | .ident name =>
    if name = "new" then some (.type .new .start frames)
    else if name = "make" then some (.type .make .start frames)
    else if (Scalar.ofName? name).isSome then some (.operand (.conversion name :: frames))
    else none
  | .field base name =>
    (accessor? name).map fun accessor => .operand (.arguments base accessor [] :: frames)
  | _ => none

/-- The type that an operand names if braces stand behind it. -/
def typeName? : Expr → Option String
  | .ident name => some name
  | .field (.ident package) name => some (package ++ "." ++ name)
  | .absent package kind => some (package ++ "." ++ kind.constant)
  | _ => none

/-- What follows the type of a form. -/
def endType (use : TypeUse) (type : Shape) (frames : List Frame) : Lexeme → Option State
  | .mark ')' => if use = .new then some (.after (.new type) frames) else none
  | .mark ',' => if use = .make then some (.operand (.length type :: frames)) else none
  | .mark '\x7b' => if use = .composite then some (.braces type frames) else none
  | _ => none

/-- Hands a lexeme to the reader of a type. -/
def takeType (use : TypeUse) (reader : TypeText.State) (frames : List Frame) (lexeme : Lexeme) :
    Option State :=
  match reader.step ⟨lexeme, .point 0⟩ with
  | .ok (.taken reader) => some (.type use reader frames)
  | .ok (.complete type) => endType use type frames lexeme
  | .error _ => none

/-- Takes the first token of an operand. -/
def takeOperand (frames : List Frame) : Token → Option State
  | .literal text => some (.after (.str text) frames)
  | .plain (.number text) => (decimal? text).map fun value => .after (.int value) frames
  | .plain (.word word) =>
    if word ∈ keywords then takeType .composite .start frames (.word word)
    else some (.after (.ident word) frames)
  | .plain (.mark '[') => takeType .composite .start frames (.mark '[')
  | .plain (.mark '(') => some (.operand (.parens :: frames))
  | .plain (.mark '*') => some (.operand (.deref :: frames))
  | .plain (.mark '!') => some (.operand (.not :: frames))
  | .plain (.mark ')') =>
    match frames with
    | .arguments value accessor [] :: frames => some (.after (.access value accessor []) frames)
    | _ => none
  | _ => none

/-- Takes the token behind an operand. A dot behind a number would be part of the number. -/
def takeAfter (value : Expr) (frames : List Frame) : Token → Option State
  | .sign op =>
    let (left, frames) := collapse (level op) value frames
    some (.operand (.operator op left :: frames))
  | .plain (.mark '.') =>
    match value with
    | .int _ => none
    | _ => some (.selector value frames)
  | .plain (.mark '[') => some (.operand (.position value :: frames))
  | .plain (.mark '(') => openCall frames value
  | .plain (.mark '\x7b') => (typeName? value).map fun name => .braces (.named name) frames
  | .plain (.mark c) => close c (collapse 0 value frames)
  | _ => none

/-- Takes the word behind a dot. Behind a package it may be a constant, or a type that no operand
has the name of. -/
def takeSelector (base : Expr) (frames : List Frame) (word : String) : Option State :=
  match base with
  | .ident package =>
    match absentKind? word with
    | some kind => some (.after (.absent package kind) frames)
    | none =>
      if word ∈ keywords then
        some (.type .composite (.at (.nothing (.named (package ++ "." ++ word))) []) frames)
      else some (.after (.field base word) frames)
  | _ => if word ∈ keywords then none else some (.after (.field base word) frames)

/-- Takes a token. -/
def State.step (token : Token) : State → Option State
  | .operand frames => takeOperand frames token
  | .after value frames => takeAfter value frames token
  | .selector base frames =>
    match token with
    | .plain (.word word) => takeSelector base frames word
    | _ => none
  | .type use reader frames =>
    match token with
    | .plain lexeme => takeType use reader frames lexeme
    | _ => none
  | .braces shape frames =>
    if token = .plain (.mark '\x7d') then some (.after (.composite shape) frames) else none

/-- The outcome where the text ends: one operand that no form waits for. -/
def State.finish : State → Option Expr
  | .after value frames =>
    match collapse 0 value frames with
    | (value, []) => some value
    | _ => none
  | _ => none

def run (state : State) : List Token → Option Expr
  | [] => state.finish
  | token :: tokens => (state.step token).bind fun state => run state tokens

/-- Comparisons before conjunction, conjunction before disjunction, and each from the left. -/
example : run (.operand [])
    [.plain (.word "a"), .sign .eq, .plain (.word "b"), .sign .and, .plain (.mark '!'),
      .plain (.word "c"), .sign .and, .plain (.word "d"), .sign .or, .plain (.word "e")] =
    some (.binary .or (.binary .and (.binary .and (.binary .eq (.ident "a") (.ident "b"))
      (.not (.ident "c"))) (.ident "d")) (.ident "e")) := by
  rfl

/-- Reads a text as exactly one expression. -/
def read? (text : String) : Option Expr := (scan text.toList).bind (run (.operand []))

end Unmarshal.CodeText
