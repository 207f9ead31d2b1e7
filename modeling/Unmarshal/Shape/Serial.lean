import Unmarshal.Json.Basic
import Unmarshal.Shape.Basic

/-!
# Serialized shapes

A shape as a JSON tree: one entry, whose key says which of the four forms it is. Decoding is
strict about the keys that say a form and ignores other keys of a sequence or a field.
-/
namespace Unmarshal

def Extent.toJson : Extent → Json
  | .fixed length => .tagged "fixed" (.ofNat length.toNat)
  | .dynamic => .str "dynamic"

/-- Decodes an extent. A length is a natural number below 2^64; the form without data may also
be spelled with null as its data. -/
def Extent.ofJson? : Json → Option Extent
  | .str "dynamic" => some .dynamic
  | .obj [("dynamic", .null)] => some .dynamic
  | .obj [("fixed", .int n)] =>
    if 0 ≤ n ∧ n.toNat < UInt64.size then some (.fixed (UInt64.ofNat n.toNat)) else none
  | _ => none

theorem Extent.ofJson?_toJson (extent : Extent) : Extent.ofJson? extent.toJson = some extent := by
  cases extent with
  | dynamic => rfl
  | fixed length =>
    have := length.toNat_lt
    simpa [toJson, Json.tagged, Json.ofNat, ofJson?, UInt64.size] using this

namespace Shape

mutual

def toJson : Shape → Json
  | .named name => .tagged "named" (.str name)
  | .optional pointee => .tagged "optional" (toJson pointee)
  | .sequence elem extent =>
    .tagged "sequence" (.obj [("elem", toJson elem), ("len", extent.toJson)])
  | .record fields => .tagged "record" (.arr (toJsonFields fields))

def toJsonFields : List (Field Shape) → List Json
  | [] => []
  | ⟨name, type⟩ :: fs =>
    .obj [("name", .str name), ("shape", toJson type)] :: toJsonFields fs

end

mutual

/-- Decodes a shape from its serialized form. -/
def ofJson? : Json → Option Shape
  | .obj [("named", .str name)] => some (.named name)
  | .obj [("optional", j)] => (ofJson? j).map .optional
  | .obj [("sequence", .obj entries)] => do
    let elem ← ofKey? "elem" entries
    let extent ← Json.lookup "len" entries >>= Extent.ofJson?
    some (.sequence elem extent)
  | .obj [("record", .arr items)] => (ofItems? items).map .record
  | _ => none

def ofKey? (key : String) : List (String × Json) → Option Shape
  | [] => none
  | (k, j) :: rest => if k = key then ofJson? j else ofKey? key rest

def ofItems? : List Json → Option (List (Field Shape))
  | [] => some []
  | .obj entries :: rest => do
    let name ← Json.lookup "name" entries >>= Json.text?
    let type ← ofKey? "shape" entries
    let fields ← ofItems? rest
    some (⟨name, type⟩ :: fields)
  | _ :: _ => none

end

theorem ofKey?_eq (key : String) (entries : List (String × Json)) :
    ofKey? key entries = Json.lookup key entries >>= ofJson? := by
  induction entries with
  | nil => simp [ofKey?, Json.lookup]
  | cons entry rest ih =>
    obtain ⟨k, j⟩ := entry
    by_cases h : k = key <;> simp [ofKey?, Json.lookup, h, ih]

private theorem ofItems?_toJsonFields (fields : List (Field Shape))
    (h : ∀ f ∈ fields, ofJson? f.type.toJson = some f.type) :
    ofItems? (toJsonFields fields) = some fields := by
  induction fields with
  | nil => rfl
  | cons f fields ih =>
    obtain ⟨name, type⟩ := f
    have hf : ofJson? type.toJson = some type := h ⟨name, type⟩ (by simp)
    have ht := ih fun f hf => h f (by simp [hf])
    simp [toJsonFields, ofItems?, ofKey?, Json.lookup, Json.text?, hf, ht]

/-- A serialized shape decodes to itself, whatever its names are. -/
theorem ofJson?_toJson (shape : Shape) : ofJson? shape.toJson = some shape := by
  induction shape using Shape.induction with
  | named => rfl
  | optional pointee ih => simp [toJson, Json.tagged, ofJson?, ih]
  | sequence elem extent ih =>
    simp [toJson, Json.tagged, ofJson?, ofKey?, Json.lookup, ih, Extent.ofJson?_toJson]
  | record fields ih => simp [toJson, Json.tagged, ofJson?, ofItems?_toJsonFields fields ih]

end Shape

end Unmarshal
