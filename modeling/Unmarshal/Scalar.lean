/-!
# Built-in scalars

The type names that need no table: each is read from a dynamic value in one of four ways, and is
narrowed by a conversion to its own name unless that reading already yields it.
-/
namespace Unmarshal

/-- The four ways in which a dynamic value gives up a scalar. -/
inductive ScalarAccess where
  | bool
  | string
  | int
  | float
deriving DecidableEq, Repr

/-- A built-in scalar type. -/
inductive Scalar where
  | bool
  | string
  | int
  | int8
  | int16
  | int32
  | rune
  | int64
  | uint
  | uint8
  | byte
  | uint16
  | uint32
  | uint64
  | uintptr
  | float32
  | float64
deriving DecidableEq, Repr

namespace Scalar

def all : List Scalar :=
  [.bool, .string, .int, .int8, .int16, .int32, .rune, .int64, .uint, .uint8, .byte, .uint16,
    .uint32, .uint64, .uintptr, .float32, .float64]

def name : Scalar → String
  | .bool => "bool"
  | .string => "string"
  | .int => "int"
  | .int8 => "int8"
  | .int16 => "int16"
  | .int32 => "int32"
  | .rune => "rune"
  | .int64 => "int64"
  | .uint => "uint"
  | .uint8 => "uint8"
  | .byte => "byte"
  | .uint16 => "uint16"
  | .uint32 => "uint32"
  | .uint64 => "uint64"
  | .uintptr => "uintptr"
  | .float32 => "float32"
  | .float64 => "float64"

/-- How a value of the type is read: every whole number as an integer, both floats as a float. -/
def access : Scalar → ScalarAccess
  | .bool => .bool
  | .string => .string
  | .float32 | .float64 => .float
  | _ => .int

/-- The conversion that a reading needs. The types that a reading yields by itself need none. -/
def cast? : Scalar → Option String
  | .bool | .string | .int | .float64 => none
  | scalar => some scalar.name

/-- The built-in scalar of a name. -/
def ofName? (name : String) : Option Scalar := all.find? fun scalar => scalar.name == name

theorem mem_all (scalar : Scalar) : scalar ∈ all := by cases scalar <;> simp [all]

theorem name_of_ofName? {name : String} {scalar : Scalar} (h : ofName? name = some scalar) :
    scalar.name = name := by
  simpa using List.find?_some h

theorem ofName?_name (scalar : Scalar) : ofName? scalar.name = some scalar := by
  cases scalar <;> rfl

theorem ofName?_eq_some_iff {name : String} {scalar : Scalar} :
    ofName? name = some scalar ↔ scalar.name = name :=
  ⟨name_of_ofName?, fun h => h ▸ ofName?_name scalar⟩

end Scalar

end Unmarshal
