import Unmarshal.Code.Render
import Unmarshal.Code.Serial
import Unmarshal.Layout.Emit

/-!
# Bindings of functions

The arguments of a call, converted one after the other from a list of dynamic values. All locals
share one body, and none of them hides a name that the body refers to or the function it calls.
-/
namespace Unmarshal

/-- The base name for the locals of a parameter. A blank one is named by its position. -/
def Param.localName (param : Param) (index : Nat) : String :=
  if param.name = "" ∨ param.name = "_" then "arg" ++ toString index else param.name

/-- The values that a call is given, and the statements that come before it. -/
structure Arguments where
  values : List Expr
  code : List Stmt
deriving Repr

/-- A function with its converted arguments. -/
structure Binding where
  name : String
  arguments : Arguments
deriving Repr

namespace AliasTable

/-- The layouts of parameters from position `index` on, each under its base name. The first
parameter without a layout is the failure of all. -/
def layoutParams (table : AliasTable) :
    Nat → List Param → Except ResolveError (List (Field Layout))
  | _, [] => .ok []
  | index, param :: params =>
    match table.layout param.shape with
    | .error e => .error (.inArgument index param.name param.shape e)
    | .ok layout =>
      match table.layoutParams (index + 1) params with
      | .error e => .error e
      | .ok layouts => .ok (⟨param.localName index, layout⟩ :: layouts)

end AliasTable

namespace Arguments

/-- Binds each layout to the dynamic value at its position, counted from `index`. -/
def emit (options : Options) : Nat → List (Field Layout) → Names → Arguments
  | _, [], _ => ⟨[], []⟩
  | index, ⟨base, layout⟩ :: layouts, names =>
    let first := layout.bind options base (.index (.ident options.args) (.int index)) names
    let others := emit options (index + 1) layouts first.2
    ⟨first.1.value :: others.values, first.1.code ++ others.code⟩

def toJson (arguments : Arguments) : Json :=
  .obj [("args", .arr (Expr.toJsonAll arguments.values)),
    ("stmts", .arr (Stmt.toJsonAll arguments.code))]

end Arguments

namespace AliasTable

/-- Converts the arguments of an unnamed call. -/
def resolveArguments (table : AliasTable) (options : Options) (params : List Param) :
    Except ResolveError Arguments :=
  (table.layoutParams 0 params).map fun layouts => .emit options 0 layouts (.reserved options)

/-- Binds a function. Its own name is taken before any local is declared. -/
def bind (table : AliasTable) (options : Options) (signature : Signature) :
    Except ResolveError Binding :=
  (table.layoutParams 0 signature.params).map fun layouts =>
    ⟨signature.name, .emit options 0 layouts ((Names.reserved options).reserve signature.name)⟩

def bindAll (table : AliasTable) (options : Options) (signatures : List Signature) :
    List (Except ResolveError Binding) :=
  signatures.map (table.bind options)

end AliasTable

namespace Binding

def call (binding : Binding) : Expr := .call (.ident binding.name) binding.arguments.values

/-- The text of a binding: the statements, and on the last line the call. -/
def render (binding : Binding) : String :=
  "\n".intercalate (Stmt.allLines binding.arguments.code ++ [binding.call.render])

def toJson (binding : Binding) : Json :=
  .obj [("name", .str binding.name), ("bindings", binding.arguments.toJson)]

end Binding

end Unmarshal
