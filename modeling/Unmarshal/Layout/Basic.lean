import Unmarshal.AliasTable
import Unmarshal.ResolveError
import Unmarshal.Scalar

/-!
# Layouts

The layout of a shape is what remains when every name has been followed to a scalar or to the
shape it stands for. Every node keeps the type it was declared with, so that storage is allocated
under the name that was written and not under what the name stands for.
-/
namespace Unmarshal

/-- A shape with its names followed. -/
inductive Layout where
  | scalar (declared : Shape) (type : Scalar)
  | optional (declared : Shape) (pointee : Layout)
  | sequence (declared : Shape) (elem : Layout) (extent : Extent)
  | record (declared : Shape) (fields : List (Field Layout))
deriving Inhabited, Repr

namespace Layout

/-- The type that a place of this layout is declared with. -/
def declared : Layout → Shape
  | .scalar declared _ | .optional declared _ | .sequence declared _ _ | .record declared _ =>
    declared

def declaredAs (type : Shape) : Layout → Layout
  | .scalar _ builtin => .scalar type builtin
  | .optional _ pointee => .optional type pointee
  | .sequence _ elem extent => .sequence type elem extent
  | .record _ fields => .record type fields

@[simp] theorem declared_declaredAs (type : Shape) (layout : Layout) :
    (layout.declaredAs type).declared = type := by
  cases layout <;> rfl

/-- Induction over a layout, with the statement for the layout of every field at a record. -/
@[elab_as_elim]
theorem induction {motive : Layout → Prop}
    (scalar : ∀ declared type, motive (.scalar declared type))
    (optional : ∀ declared pointee, motive pointee → motive (.optional declared pointee))
    (sequence : ∀ declared elem extent, motive elem → motive (.sequence declared elem extent))
    (record : ∀ declared (fields : List (Field Layout)), (∀ f ∈ fields, motive f.type) →
      motive (.record declared fields)) (layout : Layout) : motive layout := by
  apply Layout.rec (motive_1 := motive) (motive_2 := fun fs => ∀ f ∈ fs, motive f.type)
    (motive_3 := fun f => motive f.type) <;> simp_all

end Layout

namespace Shape

mutual

/-- The layout of a shape, given those of the names in it. The first failure, depth first and in
the order of the fields, is the failure of the whole. -/
def layoutWith (leaf : String → Except ResolveError Layout) : Shape → Except ResolveError Layout
  | .named name => leaf name
  | .optional pointee =>
    match layoutWith leaf pointee with
    | .ok layout => .ok (.optional (.optional pointee) layout)
    | .error e => .error (.inPointee pointee e)
  | .sequence elem extent =>
    match layoutWith leaf elem with
    | .ok layout => .ok (.sequence (.sequence elem extent) layout extent)
    | .error e => .error (.inElement elem e)
  | .record fields =>
    match layoutFields leaf fields with
    | .ok layouts => .ok (.record (.record fields) layouts)
    | .error e => .error e

def layoutFields (leaf : String → Except ResolveError Layout) :
    List (Field Shape) → Except ResolveError (List (Field Layout))
  | [] => .ok []
  | ⟨name, type⟩ :: fields =>
    match layoutWith leaf type with
    | .ok layout =>
      match layoutFields leaf fields with
      | .ok layouts => .ok (⟨name, layout⟩ :: layouts)
      | .error e => .error e
    | .error e => .error (.inField name type e)

end

private theorem zip_of_layoutFields {leaf : String → Except ResolveError Layout}
    {motive : Shape → Layout → Prop} {fields : List (Field Shape)} {layouts : List (Field Layout)}
    (ih : ∀ f ∈ fields, ∀ layout, f.type.layoutWith leaf = .ok layout → motive f.type layout)
    (h : layoutFields leaf fields = .ok layouts) :
    fields.map Field.name = layouts.map Field.name ∧
      ∀ p ∈ fields.zip layouts, motive p.1.type p.2.type := by
  induction fields generalizing layouts with
  | nil =>
    cases h
    simp
  | cons f fields ihFields =>
    obtain ⟨name, type⟩ := f
    simp only [layoutFields] at h
    split at h
    · next layout hl =>
      split at h
      · next rest hr =>
        cases h
        obtain ⟨hnames, hparts⟩ := ihFields (fun f hf => ih f (by simp [hf])) hr
        refine ⟨by simp [hnames], ?_⟩
        intro p hp
        rcases List.mem_cons.mp hp with rfl | hp
        · exact ih ⟨name, type⟩ (by simp) layout hl
        · exact hparts p hp
      · cases h
    · cases h

/-- Induction over a shape that has a layout, with the layout beside it. -/
theorem layoutWith_induction {leaf : String → Except ResolveError Layout}
    {motive : Shape → Layout → Prop}
    (named : ∀ name layout, leaf name = .ok layout → motive (.named name) layout)
    (optional : ∀ pointee layout, motive pointee layout →
      motive (.optional pointee) (.optional (.optional pointee) layout))
    (sequence : ∀ elem extent layout, motive elem layout →
      motive (.sequence elem extent) (.sequence (.sequence elem extent) layout extent))
    (record : ∀ (fields : List (Field Shape)) (layouts : List (Field Layout)),
      fields.map Field.name = layouts.map Field.name →
      (∀ p ∈ fields.zip layouts, motive p.1.type p.2.type) →
      motive (.record fields) (.record (.record fields) layouts))
    {shape : Shape} {layout : Layout} (h : shape.layoutWith leaf = .ok layout) :
    motive shape layout := by
  induction shape using Shape.induction generalizing layout with
  | named name => exact named name layout h
  | optional pointee ih =>
    simp only [layoutWith] at h
    split at h
    · next inner hl =>
      cases h
      exact optional pointee inner (ih hl)
    · cases h
  | sequence elem extent ih =>
    simp only [layoutWith] at h
    split at h
    · next inner hl =>
      cases h
      exact sequence elem extent inner (ih hl)
    · cases h
  | record fields ih =>
    simp only [layoutWith] at h
    split at h
    · next layouts hl =>
      cases h
      obtain ⟨hnames, hparts⟩ := zip_of_layoutFields (fun f hf _ => ih f hf) hl
      exact record fields layouts hnames hparts
    · cases h

end Shape

namespace AliasTable

/-- The names from the expansion of `name` up to its next occurrence, for a path whose newest name
comes first. -/
def cycle (path : List String) (name : String) : List String :=
  name :: (path.takeWhile fun visited => visited != name).reverse ++ [name]

/-- Follows a name. A scalar is what it is, whatever the table says; another name stands for its
entry, unless that entry is being followed already. -/
def follow (table : AliasTable) (path : List String) (name : String) :
    Except ResolveError Layout :=
  match Scalar.ofName? name with
  | some scalar => .ok (.scalar (.named name) scalar)
  | none =>
    if name ∈ path then .error (.recursiveAlias (cycle path name))
    else
      match _known : table.find? name with
      | none => .error (.unresolved name)
      | some shape =>
        match shape.layoutWith fun inner => table.follow (name :: path) inner with
        | .ok layout => .ok (layout.declaredAs (.named name))
        | .error e => .error e
termination_by table.unvisited path
decreasing_by exact unvisited_cons_lt (mem_keys_of_find? _known) (by assumption)

section

variable {table : AliasTable} {path : List String} {name : String}

theorem follow_scalar {scalar : Scalar} (hs : Scalar.ofName? name = some scalar) :
    table.follow path name = .ok (.scalar (.named name) scalar) := by
  rw [follow, hs]

theorem follow_visited (hn : Scalar.ofName? name = none) (hp : name ∈ path) :
    table.follow path name = .error (.recursiveAlias (cycle path name)) := by
  rw [follow, hn]
  simp only [hp, if_true]

theorem follow_unknown (hn : Scalar.ofName? name = none) (hp : name ∉ path)
    (hf : table.find? name = none) : table.follow path name = .error (.unresolved name) := by
  rw [follow, hn]
  simp only [hp, if_false]
  split
  · rfl
  · simp_all

theorem follow_entry {shape : Shape} (hn : Scalar.ofName? name = none) (hp : name ∉ path)
    (hf : table.find? name = some shape) :
    table.follow path name =
      (shape.layoutWith (table.follow (name :: path))).map (·.declaredAs (.named name)) := by
  rw [follow, hn]
  simp only [hp, if_false]
  split
  · simp_all
  · next known =>
    rw [hf, Option.some.injEq] at known
    subst known
    cases shape.layoutWith fun inner => table.follow (name :: path) inner <;> rfl

end

/-- Induction along the expansion of names: an entry is followed with its name on the path. -/
@[elab_as_elim]
theorem followInduction (table : AliasTable) {motive : List String → String → Prop}
    (scalar : ∀ path name s, Scalar.ofName? name = some s → motive path name)
    (visited : ∀ path name, Scalar.ofName? name = none → name ∈ path → motive path name)
    (unknown : ∀ path name, Scalar.ofName? name = none → name ∉ path →
      table.find? name = none → motive path name)
    (entry : ∀ path name shape, Scalar.ofName? name = none → name ∉ path →
      table.find? name = some shape → (∀ inner, motive (name :: path) inner) → motive path name)
    (path : List String) (name : String) : motive path name := by
  induction path, name using follow.induct table with
  | case1 path name s hs => exact scalar path name s hs
  | case2 path name hn hp => exact visited path name hn hp
  | case3 path name hn hp hf => exact unknown path name hn hp hf
  | case4 path name hn hp shape hf _ _ ih => exact entry path name shape hn hp hf ih
  | case5 path name hn hp shape hf _ _ ih => exact entry path name shape hn hp hf ih

/-- Induction along names that could be followed: only scalars and entries have layouts. -/
theorem follow_ok_induction {table : AliasTable} {motive : List String → String → Layout → Prop}
    (scalar : ∀ path name type, Scalar.ofName? name = some type →
      motive path name (.scalar (.named name) type))
    (entry : ∀ path name shape layout, Scalar.ofName? name = none → name ∉ path →
      table.find? name = some shape →
      shape.layoutWith (table.follow (name :: path)) = .ok layout →
      (∀ inner found, table.follow (name :: path) inner = .ok found →
        motive (name :: path) inner found) →
      motive path name (layout.declaredAs (.named name)))
    {path : List String} {name : String} {layout : Layout}
    (h : table.follow path name = .ok layout) : motive path name layout := by
  induction path, name using table.followInduction generalizing layout with
  | scalar path name type hs =>
    rw [follow_scalar hs] at h
    cases h
    exact scalar path name type hs
  | visited path name hn hp => rw [follow_visited hn hp] at h; cases h
  | unknown path name hn hp hf => rw [follow_unknown hn hp hf] at h; cases h
  | entry path name shape hn hp hf ih =>
    rw [follow_entry hn hp hf] at h
    cases hl : shape.layoutWith (table.follow (name :: path)) with
    | error e => rw [hl] at h; cases h
    | ok inner =>
      rw [hl] at h
      cases h
      exact entry path name shape inner hn hp hf hl fun inner found hfound => ih inner hfound

def layout (table : AliasTable) (shape : Shape) : Except ResolveError Layout :=
  shape.layoutWith (table.follow [])

end AliasTable

end Unmarshal
