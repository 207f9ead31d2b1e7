import Unmarshal.Binding
import Unmarshal.Json.Print
import Unmarshal.Manifest.Decode
import Unmarshal.Manifest.Lower

/-!
# Commands

Two commands work on the file of a manifest: one prints the binding of every function, the other
only tells whether all functions can be bound. Both are functions from what the file holds to what
is printed.
-/
namespace Unmarshal

/-- What a file holds, or why that cannot be told. -/
inductive FileContent where
  | missing
  | notUtf8
  | unreadable (reason : String)
  | text (content : String)
deriving DecidableEq, Repr

def FileContent.ofBytes (bytes : ByteArray) : FileContent :=
  match String.fromUTF8? bytes with
  | some content => .text content
  | none => .notUtf8

/-- What a command prints, and its exit code. -/
structure Outcome where
  code : Nat
  stdout : String
  stderr : String
deriving DecidableEq, Repr

namespace Command

/-- The form in which bindings and errors are printed. -/
inductive Format where
  | text
  | json
deriving DecidableEq, Repr

/-- The last line of a failure. -/
def errorLine (message : String) : String := "error: " ++ message ++ "\n"

def unlines (lines : List String) : String := String.join (lines.map (· ++ "\n"))

def faultText (format : Format) (fault : Fault) : String :=
  match format with
  | .text => fault.picture
  | .json => fault.toJson.compact ++ "\n"

/-- Reads, decodes and lowers a manifest; a failure is what is printed on the error stream. A text
that is no manifest has no further message. -/
def load (path : String) (format : Format) : FileContent → Except String Project
  | .missing =>
    .error (errorLine ("Failed to read " ++ path ++ ": No such file or directory (os error 2)"))
  | .notUtf8 =>
    .error (errorLine ("Failed to read " ++ path ++ ": stream did not contain valid UTF-8"))
  | .unreadable reason => .error (errorLine ("Failed to read " ++ path ++ ": " ++ reason))
  | .text content =>
    match Manifest.ofToml? content with
    | none => .error "error: Failed to parse manifest"
    | some manifest =>
      match manifest.lower with
      | .ok project => .ok project
      | .error faults =>
        .error (String.join (faults.map (faultText format)) ++
          errorLine (toString faults.length ++ " invalid type expression(s) in '" ++ path ++ "'"))

/-- A failing command that prints nothing but errors. -/
def failure (stderr : String) : Outcome := ⟨1, "", stderr⟩

/-- A function of a project with the outcome of binding it. -/
structure Bound where
  function : String
  result : Except ResolveError Binding

def Bound.failed (bound : Bound) : Bool :=
  match bound.result with
  | .ok _ => false
  | .error _ => true

def boundFunctions (project : Project) (signatures : List Signature) : List Bound :=
  let table := project.table
  signatures.map fun signature => ⟨signature.name, table.bind project.options signature⟩

def bindings (bounds : List Bound) : List Binding :=
  bounds.filterMap fun bound => bound.result.toOption

def failedCount (bounds : List Bound) : Nat := bounds.countP Bound.failed

/-- A command fails if a function did. -/
def exitCode (bounds : List Bound) : Nat := if failedCount bounds = 0 then 0 else 1

def failureText (format : Format) (bound : Bound) : String :=
  match bound.result, format with
  | .ok _, _ => ""
  | .error e, .text => errorLine ("function `" ++ bound.function ++ "`: " ++ e.message)
  | .error e, .json => (e.report bound.function).compact ++ "\n"

/-- The errors of a command: every function that failed, and at the end how many did. -/
def failureSummary (format : Format) (bounds : List Bound) : String :=
  if failedCount bounds = 0 then ""
  else String.join (bounds.map (failureText format)) ++
    errorLine (toString (failedCount bounds) ++ " of " ++ toString bounds.length ++
      " function(s) failed")

/-- A binding as a block of text. -/
def block (binding : Binding) : String :=
  "// " ++ binding.name ++ "\n" ++ binding.render ++ "\n"

def bindingJson (binding : Binding) : Json :=
  .obj [("function", .str binding.name), ("binding", binding.toJson), ("go", .str binding.render)]

/-- The bindings as they are printed. Blocks have an empty line between them. -/
def printed (format : Format) (bindings : List Binding) : String :=
  match format with
  | .text => "\n".intercalate (bindings.map block)
  | .json => unlines (bindings.map fun binding => (bindingJson binding).compact)

/-- Prints the bindings of the given functions of a project. -/
def generate (format : Format) (project : Project) (signatures : List Signature) : Outcome :=
  let bounds := boundFunctions project signatures
  ⟨exitCode bounds, printed format (bindings bounds), failureSummary format bounds⟩

/-- Prints the binding of every function, or of every function with the given name. -/
def gen (path : String) (only : Option String) (format : Format) (content : FileContent) :
    Outcome :=
  match load path format content with
  | .error stderr => failure stderr
  | .ok project =>
    match only with
    | none => generate format project project.signatures
    | some name =>
      match project.signatures.filter fun signature => signature.name == name with
      | [] => failure (errorLine ("no function named '" ++ name ++ "' in '" ++ path ++ "'"))
      | chosen => generate format project chosen

/-- Tells whether every function can be bound. -/
def check (path : String) (content : FileContent) : Outcome :=
  match load path .text content with
  | .error stderr => failure stderr
  | .ok project =>
    let bounds := boundFunctions project project.signatures
    let summary :=
      if failedCount bounds = 0 then
        "  Checked: " ++ project.name ++ " (" ++ toString bounds.length ++ " function(s))\n"
      else failureSummary .text bounds
    ⟨exitCode bounds, "", summary⟩

end Command

end Unmarshal
