import Unmarshal.Proofs.Unfolding
import Unmarshal.Proofs.Execution.Machine

/-!
# Underlying types

A type with the names at its top followed. Of a type that has a layout it is the constructor of the
layout, over the types that the parts are declared with.
-/
namespace Unmarshal

namespace Layout

/-- The type of a place behind the name that the place is declared with. -/
def exposed : Layout → Shape
  | .scalar _ type => .named type.name
  | .optional _ pointee => .optional pointee.declared
  | .sequence _ elem extent => .sequence elem.declared extent
  | .record _ fields => .record (fields.map fun f => ⟨f.name, f.type.declared⟩)

@[simp] theorem exposed_declaredAs (type : Shape) (layout : Layout) :
    (layout.declaredAs type).exposed = layout.exposed := by
  cases layout <;> rfl

end Layout

namespace AliasTable

variable {table : AliasTable}

private theorem declared_fields {fields : List (Field Shape)} {layouts : List (Field Layout)}
    (hnames : fields.map Field.name = layouts.map Field.name)
    (h : ∀ p ∈ fields.zip layouts, table.Unfolds p.1.type p.2.type) :
    layouts.map (fun f => ⟨f.name, f.type.declared⟩) = fields := by
  induction fields generalizing layouts with
  | nil => simpa using hnames.symm
  | cons f fields ih =>
    cases layouts with
    | nil => simp at hnames
    | cons l layouts =>
      simp only [List.map_cons, List.cons.injEq] at hnames
      have hFirst : l.type.declared = f.type := (h (f, l) (by simp)).declared_eq
      have hOthers := ih hnames.2 (fun p hp => h p (by simp [hp]))
      rw [List.map_cons, hOthers, hFirst, ← hnames.1]

namespace Unfolds

variable {shape : Shape} {layout : Layout}

/-- A type that is not a name stands for itself. -/
theorem exposed_eq (h : table.Unfolds shape layout) (hnamed : ∀ name, shape ≠ .named name) :
    layout.exposed = shape := by
  cases h with
  | scalar => exact absurd rfl (hnamed _)
  | entry => exact absurd rfl (hnamed _)
  | optional h => rw [Layout.exposed, h.declared_eq]
  | sequence h => rw [Layout.exposed, h.declared_eq]
  | record hnames h => rw [Layout.exposed, declared_fields hnames h]

end Unfolds

theorem underlyingOf_entry {path : List String} {name : String} {shape : Shape}
    (hn : Scalar.ofName? name = none) (hp : name ∉ path) (hf : table.find? name = some shape) :
    table.underlyingOf path name =
      match shape with
      | .named inner => table.underlyingOf (name :: path) inner
      | shape => some shape := by
  rw [underlyingOf, hn]
  simp only [hp, if_false]
  split
  · next hnone => rw [hf] at hnone; cases hnone
  · next inner hinner =>
    rw [hf] at hinner
    cases hinner
    rfl
  · next other hnamed hother =>
    rw [hf] at hother
    cases hother
    cases shape with
    | named inner => exact absurd rfl (hnamed inner)
    | optional | sequence | record => rfl

theorem underlyingOf_of_follow {path : List String} {name : String} {layout : Layout}
    (h : table.follow path name = .ok layout) :
    table.underlyingOf path name = some layout.exposed := by
  apply follow_ok_induction (motive := fun path name layout =>
    table.underlyingOf path name = some layout.exposed) _ _ h
  · intro path name type hs
    rw [underlyingOf, hs, Layout.exposed, Scalar.name_of_ofName? hs]
  · intro path name shape layout hn hp hf hl ih
    rw [underlyingOf_entry hn hp hf, Layout.exposed_declaredAs]
    cases shape with
    | named inner => exact ih inner layout hl
    | optional | sequence | record =>
      have hUnfolds := unfolds_of_layoutWith (fun _ _ => unfolds_of_follow) hl
      rw [hUnfolds.exposed_eq fun _ => nofun]

theorem Unfolds.underlying?_eq {shape : Shape} {layout : Layout}
    (h : table.Unfolds shape layout) : table.underlying? shape = some layout.exposed := by
  cases shape with
  | named name => exact underlyingOf_of_follow h.layout_eq
  | optional | sequence | record =>
    rw [h.exposed_eq fun _ => nofun]
    rfl

end AliasTable

end Unmarshal
