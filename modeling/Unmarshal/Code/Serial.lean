import Unmarshal.Code.Basic
import Unmarshal.Shape.Serial

/-!
# Serialized conversion code

Expressions and statements as JSON trees: one entry, whose key says the form, and under it the
parts of the form by name.
-/
namespace Unmarshal

def AbsentKind.tag : AbsentKind → String
  | .undefined => "Undefined"
  | .null => "Null"

def BinaryOp.tag : BinaryOp → String
  | .eq => "Eq"
  | .ne => "Ne"
  | .lt => "Lt"
  | .and => "And"
  | .or => "Or"

namespace Expr

mutual

def toJson : Expr → Json
  | .ident name => .tagged "Ident" (.str name)
  | .int value => .tagged "Int" (.ofNat value)
  | .str text => .tagged "Str" (.str text)
  | .access value accessor args =>
    .tagged "Access" (.obj [("value", toJson value), ("accessor", .str accessor.method),
      ("args", .arr (toJsonAll args))])
  | .call callee args =>
    .tagged "Call" (.obj [("func", toJson callee), ("args", .arr (toJsonAll args))])
  | .cast type value => .tagged "Cast" (.obj [("ty", .str type), ("expr", toJson value)])
  | .field base name => .tagged "Field" (.obj [("base", toJson base), ("name", .str name)])
  | .index base position =>
    .tagged "Index" (.obj [("base", toJson base), ("index", toJson position)])
  | .deref pointer => .tagged "Deref" (toJson pointer)
  | .not operand => .tagged "Not" (toJson operand)
  | .binary op left right =>
    .tagged "Binary" (.obj [("op", .str op.tag), ("lhs", toJson left), ("rhs", toJson right)])
  | .absent package kind =>
    .tagged "Kind" (.obj [("pkg", .str package), ("kind", .str kind.tag)])
  | .new type => .tagged "New" type.toJson
  | .make type length => .tagged "Make" (.obj [("ty", type.toJson), ("len", toJson length)])
  | .composite type => .tagged "Composite" type.toJson

def toJsonAll : List Expr → List Json
  | [] => []
  | e :: es => toJson e :: toJsonAll es

end

end Expr

namespace Stmt

/-- The serialized form of a branch from those of its parts. -/
def branchJson (init : Json) (condition : Expr) (body : List Json) : Json :=
  .tagged "If" (.obj [("init", init), ("cond", condition.toJson), ("body", .arr body)])

mutual

def toJson : Stmt → Json
  | .declare name type => .tagged "VarDecl" (.obj [("name", .str name), ("ty", type.toJson)])
  | .define name value =>
    .tagged "Define" (.obj [("name", .str name), ("value", value.toJson)])
  | .assign target value =>
    .tagged "Assign" (.obj [("target", target.toJson), ("value", value.toJson)])
  | .branch none condition body => branchJson .null condition (toJsonAll body)
  | .branch (some init) condition body => branchJson (toJson init) condition (toJsonAll body)
  | .loop counter bound body =>
    .tagged "CountedLoop" (.obj [("counter", .str counter), ("bound", bound.toJson),
      ("body", .arr (toJsonAll body))])

def toJsonAll : List Stmt → List Json
  | [] => []
  | s :: rest => toJson s :: toJsonAll rest

end

end Stmt

end Unmarshal
