import Unmarshal.Json.Basic
import Unmarshal.ResolveError
import Unmarshal.TypeText.Reader

/-!
# Reports

A fault is a type text that cannot be read, with the place it was declared at. It is reported as a
JSON object or as a picture that underlines the bytes at fault. A name that cannot be followed is
reported against the function it stops.
-/
namespace Unmarshal

/-- Where a type text was declared. -/
inductive Origin where
  | alias (name : String)
  | param (function : String) (index : Nat) (name : String)
deriving DecidableEq, Repr

/-- The wording of an origin. A blank parameter is told by its position. -/
def Origin.text : Origin → String
  | .alias name => "type alias `" ++ name ++ "`"
  | .param function index name =>
    if name = "" ∨ name = "_" then "parameter " ++ toString index ++ " of `" ++ function ++ "`"
    else "parameter `" ++ name ++ "` of `" ++ function ++ "`"

/-- A type text that cannot be read. -/
structure Fault where
  origin : Origin
  text : String
  error : TypeText.ReadError
deriving DecidableEq, Repr

namespace TypeText.Cause

def code : Cause → String
  | .unrecognizedShape _ => "T0001"
  | .unexpectedToken .. => "T0002"
  | .unexpectedEnd _ => "T0003"
  | .invalidLength _ => "T0004"
  | .duplicateField _ => "T0005"
  | .trailingInput _ => "T0006"

/-- The remark beside the underlined bytes. -/
def label : Cause → String
  | .unrecognizedShape _ => "no conversion exists for this type"
  | .unexpectedToken .. => "unexpected token"
  | .unexpectedEnd _ => "type ends here"
  | .invalidLength _ => "not an integer literal"
  | .duplicateField _ => "declared again here"
  | .trailingInput _ => "not part of the type"

end TypeText.Cause

def Text.Span.toJson (span : Text.Span) : Json :=
  .obj [("start", .ofNat span.start), ("end", .ofNat span.stop)]

namespace Fault

def toJson (fault : Fault) : Json :=
  .obj [("code", .str fault.error.cause.code), ("severity", .str "error"),
    ("message", .str fault.error.message), ("origin", .str fault.origin.text),
    ("text", .str fault.text), ("span", fault.error.span.toJson)]

/-- A character a number of times over. -/
private def times (n : Nat) (c : Char) : String := String.ofList (List.replicate n c)

/-- The two lines below the text: a rule under the bytes from `start` to `stop` that hangs a remark
on its middle, or a bare stroke where there is no byte to underline. -/
def underline (start stop : Nat) (remark : String) : List String :=
  let width := stop - start
  let middle := width / 2
  let mark :=
    if width = 0 then "│ "
    else times middle '─' ++ "┬" ++ times (width - middle - 1) '─' ++ "  "
  ["   │ " ++ times start ' ' ++ mark,
    "   │ " ++ times (start + middle) ' ' ++ "╰" ++ times (width - middle + 1) '─' ++ " " ++ remark]

/-- The picture of a fault in a text of one line, whose characters take a byte each. -/
def picture (fault : Fault) : String :=
  let range := fault.error.span.clamp (Text.byteLength fault.text.toList)
  let lines :=
    ["[" ++ fault.error.cause.code ++ "] Error: " ++ fault.error.message ++ " in " ++
        fault.origin.text,
      "   ╭─[ <unknown>:1:" ++ toString (range.start + 1) ++ " ]",
      "   │",
      " 1 │ " ++ fault.text] ++
    underline range.start range.stop fault.error.cause.label ++
    ["───╯"]
  String.join (lines.map (· ++ "\n"))

end Fault

/-- The report of an error that stops a function. -/
def ResolveError.report (error : ResolveError) (function : String) : Json :=
  .obj [("function", .str function), ("severity", .str "error"), ("message", .str error.message),
    ("breadcrumbs", .ofTexts error.breadcrumbs), ("cause", error.rootCause.toJson)]

end Unmarshal
