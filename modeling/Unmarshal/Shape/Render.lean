import Unmarshal.Shape.Basic

/-!
# Type expressions of shapes

Every shape has one written form, in which a record lists each field with its own type. The form
of a well-formed shape reads back as that shape.
-/
namespace Unmarshal.Shape

/-- The brackets in front of the element type of a sequence. -/
def extentText : Extent → String
  | .fixed length => "[" ++ toString length.toNat ++ "]"
  | .dynamic => "[]"

mutual

/-- The type expression of a shape. -/
def render : Shape → String
  | .named name => name
  | .optional pointee => "*" ++ render pointee
  | .sequence elem extent => extentText extent ++ render elem
  | .record [] => "struct\x7b\x7d"
  | .record (f :: fs) => "struct \x7b " ++ "; ".intercalate (renderFields (f :: fs)) ++ " \x7d"

def renderFields : List (Field Shape) → List String
  | [] => []
  | ⟨name, type⟩ :: fs => (name ++ " " ++ render type) :: renderFields fs

end

theorem renderFields_eq_map (fs : List (Field Shape)) :
    renderFields fs = fs.map fun f => f.name ++ " " ++ f.type.render := by
  induction fs with
  | nil => rfl
  | cons f fs ih => obtain ⟨name, type⟩ := f; simp [renderFields, ih]

end Unmarshal.Shape
