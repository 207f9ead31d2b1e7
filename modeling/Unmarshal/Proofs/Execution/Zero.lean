import Unmarshal.Proofs.Execution.Underlying

/-!
# Zero values

The zero value of a type that has a layout. The zero is found by following names along a path, as
the layout is, and so the one exists where the other does.
-/
namespace Unmarshal

namespace Machine

variable {δ φ ω : Type} (M : Machine δ φ ω)

mutual

/-- The zero value of a place of a layout. -/
def zero : Layout → Value δ φ
  | .scalar _ type => .atom (M.zeroAtom type.access)
  | .optional _ _ => .pointer none
  | .sequence _ _ .dynamic => .slice none
  | .sequence _ elem (.fixed length) => .array (List.replicate length.toNat (zero elem))
  | .record _ fields => .record (zeros fields)

def zeros : List (Field Layout) → List (Field (Value δ φ))
  | [] => []
  | ⟨name, type⟩ :: fields => ⟨name, zero type⟩ :: zeros fields

end

@[simp] theorem zero_declaredAs (type : Shape) (layout : Layout) :
    M.zero (layout.declaredAs type) = M.zero layout := by
  cases layout with
  | sequence _ _ extent => cases extent <;> simp [Layout.declaredAs, zero]
  | _ => simp [Layout.declaredAs, zero]

variable {M}

private theorem zeroFields_of_zip {zeroLeaf : String → Option (Value δ φ)}
    {fields : List (Field Shape)} {layouts : List (Field Layout)}
    (hnames : fields.map Field.name = layouts.map Field.name)
    (h : ∀ p ∈ fields.zip layouts, p.1.type.zeroWith zeroLeaf = some (M.zero p.2.type)) :
    Shape.zeroFields zeroLeaf fields = some (M.zeros layouts) := by
  induction fields generalizing layouts with
  | nil =>
    obtain rfl : layouts = [] := by simpa using hnames.symm
    rfl
  | cons f fields ih =>
    cases layouts with
    | nil => simp at hnames
    | cons l layouts =>
      simp only [List.map_cons, List.cons.injEq] at hnames
      have hFirst := h (f, l) (by simp)
      have hOthers := ih hnames.2 (fun p hp => h p (by simp [hp]))
      simp only [Shape.zeroFields, hFirst, hOthers, zeros, hnames.1]

theorem zeroWith_of_layoutWith {leaf : String → Except ResolveError Layout}
    {zeroLeaf : String → Option (Value δ φ)} {shape : Shape} {layout : Layout}
    (hleaf : ∀ name layout, leaf name = .ok layout → zeroLeaf name = some (M.zero layout))
    (h : shape.layoutWith leaf = .ok layout) :
    shape.zeroWith zeroLeaf = some (M.zero layout) := by
  apply Shape.layoutWith_induction (motive := fun shape layout =>
    shape.zeroWith zeroLeaf = some (M.zero layout)) hleaf _ _ _ h
  · intro pointee layout _
    rfl
  · intro elem extent layout ih
    cases extent with
    | fixed length => simp [Shape.zeroWith, zero, ih]
    | dynamic => rfl
  · intro fields layouts hnames hparts
    simp [Shape.zeroWith, zero, zeroFields_of_zip hnames hparts]

theorem zeroOf_entry {path : List String} {name : String} {shape : Shape}
    (hn : Scalar.ofName? name = none) (hp : name ∉ path)
    (hf : M.types.find? name = some shape) :
    M.zeroOf path name = shape.zeroWith (M.zeroOf (name :: path)) := by
  rw [zeroOf, hn]
  simp only [hp, if_false]
  split
  · next hnone => rw [hf] at hnone; cases hnone
  · next other hother =>
    rw [hf] at hother
    cases hother
    rfl

theorem zeroOf_of_follow {path : List String} {name : String} {layout : Layout}
    (h : M.types.follow path name = .ok layout) : M.zeroOf path name = some (M.zero layout) := by
  apply AliasTable.follow_ok_induction (motive := fun path name layout =>
    M.zeroOf path name = some (M.zero layout)) _ _ h
  · intro path name type hs
    rw [zeroOf, hs]
    rfl
  · intro path name shape layout hn hp hf hl ih
    rw [zeroOf_entry hn hp hf, zero_declaredAs]
    exact zeroWith_of_layoutWith ih hl

/-- A type that unfolds into a layout has a zero value. -/
theorem zero?_of_unfolds {shape : Shape} {layout : Layout} (h : M.types.Unfolds shape layout) :
    M.zero? shape = some (M.zero layout) :=
  zeroWith_of_layoutWith (fun _ _ => zeroOf_of_follow) h.layout_eq

theorem elemZero?_of_unfolds {shape declared : Shape} {elem : Layout}
    (h : M.types.Unfolds shape (.sequence declared elem .dynamic)) :
    M.elemZero? shape = some (M.zero elem) := by
  rw [elemZero?, h.underlying?_eq]
  exact zero?_of_unfolds (h.part elem (by simp [Layout.parts]))

end Machine

end Unmarshal
