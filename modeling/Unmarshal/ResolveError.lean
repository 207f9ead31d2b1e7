import Unmarshal.Shape.Render
import Unmarshal.Shape.Serial

/-!
# Errors of following names

A name cannot be followed if it has no entry or stands, in the end, for itself. The error is
wrapped by every form it lies in, so that it reads as a path from an argument to the name.
-/
namespace Unmarshal

/-- Why a shape has no layout, with the way to the name at fault. -/
inductive ResolveError where
  | unresolved (name : String)
  | recursiveAlias (chain : List String)
  | inPointee (pointee : Shape) (source : ResolveError)
  | inElement (elem : Shape) (source : ResolveError)
  | inField (field : String) (type : Shape) (source : ResolveError)
  | inArgument (index : Nat) (name : String) (shape : Shape) (source : ResolveError)
deriving DecidableEq, Repr

namespace ResolveError

/-- The error that this one wraps. -/
def source? : ResolveError → Option ResolveError
  | .unresolved _ | .recursiveAlias _ => none
  | .inPointee _ source | .inElement _ source | .inField _ _ source | .inArgument _ _ _ source =>
    some source

def rootCause : ResolveError → ResolveError
  | .inPointee _ source | .inElement _ source | .inField _ _ source | .inArgument _ _ _ source =>
    source.rootCause
  | error => error

/-- How many errors there are on the way to the innermost one, both ends included. -/
def depth : ResolveError → Nat
  | .inPointee _ source | .inElement _ source | .inField _ _ source | .inArgument _ _ _ source =>
    source.depth + 1
  | _ => 1

/-- The wording of one layer. -/
def label : ResolveError → String
  | .unresolved name => "unresolved identifier `" ++ name ++ "`"
  | .recursiveAlias chain => "recursive type alias " ++ " -> ".intercalate chain
  | .inPointee pointee _ => "unresolved pointer element type " ++ pointee.render
  | .inElement elem _ => "unresolved array element type " ++ elem.render
  | .inField field type _ => "unresolved struct field `" ++ field ++ "` type " ++ type.render
  | .inArgument index name shape _ =>
    "unresolved argument " ++ toString index ++ " \"" ++ name ++ "\" type " ++ shape.render

/-- The wordings of all layers, outermost first. -/
def breadcrumbs : ResolveError → List String
  | .inPointee pointee source => label (.inPointee pointee source) :: source.breadcrumbs
  | .inElement elem source => label (.inElement elem source) :: source.breadcrumbs
  | .inField field type source => label (.inField field type source) :: source.breadcrumbs
  | .inArgument index name shape source =>
    label (.inArgument index name shape source) :: source.breadcrumbs
  | error => [label error]

def message (error : ResolveError) : String := ": ".intercalate error.breadcrumbs

def tag : ResolveError → String
  | .unresolved _ => "UnresolvedIdentifier"
  | .recursiveAlias _ => "RecursiveAlias"
  | .inPointee .. => "InPointerElement"
  | .inElement .. => "InArrayElement"
  | .inField .. => "InStructField"
  | .inArgument .. => "UnresolvedArgument"

def toJson : ResolveError → Json
  | .unresolved name => .tagged "UnresolvedIdentifier" (.obj [("name", .str name)])
  | .recursiveAlias chain => .tagged "RecursiveAlias" (.obj [("chain", .ofTexts chain)])
  | .inPointee pointee source =>
    .tagged "InPointerElement" (.obj [("elem", pointee.toJson), ("source", source.toJson)])
  | .inElement elem source =>
    .tagged "InArrayElement" (.obj [("elem", elem.toJson), ("source", source.toJson)])
  | .inField field type source =>
    .tagged "InStructField" (.obj [("field", .str field), ("shape", type.toJson),
      ("source", source.toJson)])
  | .inArgument index name shape source =>
    .tagged "UnresolvedArgument" (.obj [("index", .ofNat index), ("name", .str name),
      ("shape", shape.toJson), ("source", source.toJson)])

theorem length_breadcrumbs (error : ResolveError) : error.breadcrumbs.length = error.depth := by
  induction error <;> simp_all [breadcrumbs, depth]

theorem source?_rootCause (error : ResolveError) : error.rootCause.source? = none := by
  induction error <;> simp_all [rootCause, source?]

end ResolveError

end Unmarshal
