/-!
# Type shapes

The structure of a native value: a name, a pointer that may be nil, an array or slice, or a record
with ordered fields. Whether a name is built in or stands for another shape is decided where names
are followed, not here.
-/
namespace Unmarshal

/-- A named part of a record. The same pairing serves for every description of a field's type. -/
structure Field (α : Type) where
  name : String
  type : α
deriving DecidableEq, Repr

/-- How many elements a sequence has: fixed by its type, or known only when a value arrives. -/
inductive Extent where
  | fixed (length : UInt64)
  | dynamic
deriving DecidableEq, Repr

/-- The structure of a native type. -/
inductive Shape where
  | named (name : String)
  | optional (pointee : Shape)
  | sequence (elem : Shape) (extent : Extent)
  | record (fields : List (Field Shape))
deriving Inhabited, Repr

namespace Shape

mutual

/-- Equality of shapes is decided node by node. -/
def decideEq : (s t : Shape) → Decidable (s = t)
  | .named a, .named b => if h : a = b then isTrue (by rw [h]) else isFalse (by simp [h])
  | .optional s, .optional t =>
    match decideEq s t with
    | isTrue h => isTrue (by rw [h])
    | isFalse h => isFalse (by simp [h])
  | .sequence s m, .sequence t n =>
    match decideEq s t with
    | isTrue h => if k : m = n then isTrue (by rw [h, k]) else isFalse (by simp [k])
    | isFalse h => isFalse (by simp [h])
  | .record fs, .record gs =>
    match decideEqFields fs gs with
    | isTrue h => isTrue (by rw [h])
    | isFalse h => isFalse (by simp [h])
  | .named _, .optional _ | .named _, .sequence .. | .named _, .record _
  | .optional _, .named _ | .optional _, .sequence .. | .optional _, .record _
  | .sequence .., .named _ | .sequence .., .optional _ | .sequence .., .record _
  | .record _, .named _ | .record _, .optional _ | .record _, .sequence .. => isFalse (by simp)

def decideEqFields : (fs gs : List (Field Shape)) → Decidable (fs = gs)
  | [], [] => isTrue rfl
  | ⟨n, s⟩ :: fs, ⟨m, t⟩ :: gs =>
    if h : n = m then
      match decideEq s t, decideEqFields fs gs with
      | isTrue k, isTrue l => isTrue (by rw [h, k, l])
      | isFalse k, _ => isFalse (by simp [k])
      | _, isFalse k => isFalse (by simp [k])
    else isFalse (by simp [h])
  | [], _ :: _ | _ :: _, [] => isFalse (by simp)

end

instance : DecidableEq Shape := decideEq

/-- Induction over a shape, with the statement for every field type at a record. -/
@[elab_as_elim]
theorem induction {motive : Shape → Prop} (named : ∀ name, motive (.named name))
    (optional : ∀ pointee, motive pointee → motive (.optional pointee))
    (sequence : ∀ elem extent, motive elem → motive (.sequence elem extent))
    (record : ∀ fields : List (Field Shape), (∀ f ∈ fields, motive f.type) →
      motive (.record fields)) (shape : Shape) : motive shape := by
  apply Shape.rec (motive_1 := motive) (motive_2 := fun fs => ∀ f ∈ fs, motive f.type)
    (motive_3 := fun f => motive f.type) <;> simp_all

end Shape

/-- A parameter: its name, which may be blank, and the shape it was declared with. -/
structure Param where
  name : String
  shape : Shape
deriving DecidableEq, Repr

/-- A function to be called: its name and its parameters in order. -/
structure Signature where
  name : String
  params : List Param
deriving DecidableEq, Repr

end Unmarshal
