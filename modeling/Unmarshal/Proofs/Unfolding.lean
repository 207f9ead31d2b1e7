import Unmarshal.Proofs.Aliases

/-!
# Unfolding of shapes

The rules by which a shape unfolds into a layout, without the path of the names that are being
followed. A layout is found by following names exactly if the rules derive it, and a node of a
layout unfolds the type that it is declared with.
-/
namespace Unmarshal

namespace Field

variable {α β : Type} {fields : List (Field α)}

theorem exists_zip {others : List (Field β)}
    (hnames : fields.map Field.name = others.map Field.name) :
    (∀ f ∈ fields, ∃ g, (f, g) ∈ fields.zip others) ∧
      ∀ g ∈ others, ∃ f, (f, g) ∈ fields.zip others := by
  induction fields generalizing others with
  | nil =>
    cases others with
    | nil => simp
    | cons g others => simp at hnames
  | cons f fields ih =>
    cases others with
    | nil => simp at hnames
    | cons g others =>
      simp only [List.map_cons, List.cons.injEq] at hnames
      obtain ⟨hleft, hright⟩ := ih hnames.2
      constructor
      · intro a ha
        rcases List.mem_cons.mp ha with rfl | ha
        · exact ⟨g, by simp⟩
        · obtain ⟨b, hb⟩ := hleft a ha
          exact ⟨b, by simp [hb]⟩
      · intro b hb
        rcases List.mem_cons.mp hb with rfl | hb
        · exact ⟨f, by simp⟩
        · obtain ⟨a, ha⟩ := hright b hb
          exact ⟨a, by simp [ha]⟩

theorem eq_of_zip {R : α → β → Prop} {first second : List (Field β)}
    (hfirst : fields.map Field.name = first.map Field.name)
    (hsecond : fields.map Field.name = second.map Field.name)
    (h : ∀ p ∈ fields.zip first, ∀ b, R p.1.type b → p.2.type = b)
    (k : ∀ p ∈ fields.zip second, R p.1.type p.2.type) : first = second := by
  induction fields generalizing first second with
  | nil => simp_all
  | cons f fields ih =>
    cases first with
    | nil => simp at hfirst
    | cons a first =>
      cases second with
      | nil => simp at hsecond
      | cons b second =>
        simp only [List.map_cons, List.cons.injEq] at hfirst hsecond
        have htype : a.type = b.type := h (f, a) (by simp) b.type (k (f, b) (by simp))
        have hrest := ih hfirst.2 hsecond.2 (fun p hp => h p (by simp [hp]))
          (fun p hp => k p (by simp [hp]))
        obtain ⟨aName, aType⟩ := a
        obtain ⟨bName, bType⟩ := b
        simp_all

end Field

namespace Layout

def parts : Layout → List Layout
  | .scalar _ _ => []
  | .optional _ pointee => [pointee]
  | .sequence _ elem _ => [elem]
  | .record _ fields => fields.map Field.type

@[simp] theorem parts_declaredAs (type : Shape) (layout : Layout) :
    (layout.declaredAs type).parts = layout.parts := by
  cases layout <;> rfl

end Layout

namespace AliasTable

/-- A scalar is a leaf, another name unfolds as its entry does but keeps its name, and the other
forms unfold part by part. -/
inductive Unfolds (table : AliasTable) : Shape → Layout → Prop where
  | scalar {name : String} {type : Scalar} (hs : Scalar.ofName? name = some type) :
      Unfolds table (.named name) (.scalar (.named name) type)
  | entry {name : String} {shape : Shape} {layout : Layout} (hn : Scalar.ofName? name = none)
      (hf : table.find? name = some shape) (h : Unfolds table shape layout) :
      Unfolds table (.named name) (layout.declaredAs (.named name))
  | optional {pointee : Shape} {layout : Layout} (h : Unfolds table pointee layout) :
      Unfolds table (.optional pointee) (.optional (.optional pointee) layout)
  | sequence {elem : Shape} {extent : Extent} {layout : Layout} (h : Unfolds table elem layout) :
      Unfolds table (.sequence elem extent) (.sequence (.sequence elem extent) layout extent)
  | record {fields : List (Field Shape)} {layouts : List (Field Layout)}
      (hnames : fields.map Field.name = layouts.map Field.name)
      (h : ∀ p ∈ fields.zip layouts, Unfolds table p.1.type p.2.type) :
      Unfolds table (.record fields) (.record (.record fields) layouts)

variable {table : AliasTable}

theorem unfolds_of_layoutWith {leaf : String → Except ResolveError Layout} {shape : Shape}
    {layout : Layout}
    (hleaf : ∀ name layout, leaf name = .ok layout → table.Unfolds (.named name) layout)
    (h : shape.layoutWith leaf = .ok layout) : table.Unfolds shape layout := by
  apply Shape.layoutWith_induction hleaf _ _ _ h
  · intro pointee layout hPointee
    exact .optional hPointee
  · intro elem extent layout hElem
    exact .sequence hElem
  · intro fields layouts hnames hparts
    exact .record hnames hparts

theorem unfolds_of_follow {path : List String} {name : String} {layout : Layout}
    (h : table.follow path name = .ok layout) : table.Unfolds (.named name) layout := by
  apply follow_ok_induction (motive := fun _ name layout =>
    table.Unfolds (.named name) layout) _ _ h
  · intro path name type hs
    exact .scalar hs
  · intro path name shape layout hn _ hf hl ih
    exact .entry hn hf (unfolds_of_layoutWith ih hl)

theorem unfolds_of_layout {shape : Shape} {layout : Layout} (h : table.layout shape = .ok layout) :
    table.Unfolds shape layout :=
  unfolds_of_layoutWith (fun _ _ => unfolds_of_follow) h

namespace Unfolds

variable {shape : Shape} {layout : Layout}

theorem declared_eq (h : table.Unfolds shape layout) : layout.declared = shape := by
  cases h with
  | entry => exact Layout.declared_declaredAs _ _
  | _ => rfl

theorem unique {other : Layout} (h : table.Unfolds shape layout) (k : table.Unfolds shape other) :
    layout = other := by
  induction h generalizing other with
  | scalar hs =>
    cases k with
    | scalar ht => rw [hs] at ht; cases ht; rfl
    | entry hn => rw [hs] at hn; cases hn
  | entry hn hf _ ih =>
    cases k with
    | scalar ht => rw [hn] at ht; cases ht
    | entry _ hg k =>
      rw [hf] at hg
      cases hg
      rw [ih k]
  | optional _ ih => cases k with | optional k => rw [ih k]
  | sequence _ ih => cases k with | sequence k => rw [ih k]
  | record hnames _ ih =>
    cases k with
    | record hothers k => rw [Field.eq_of_zip hnames hothers (fun p hp _ => ih p hp) k]

theorem wellDefined (h : table.Unfolds shape layout) :
    ∀ name ∈ shape.aliases, table.WellDefined name := by
  induction h with
  | scalar hs => simp [Shape.aliases, Shape.names, hs]
  | entry hn hf _ ih =>
    intro name hname
    simp only [Shape.aliases, Shape.names, hn, List.filter_cons, Option.isNone_none, if_true,
      List.filter_nil, List.mem_singleton] at hname
    subst hname
    exact .of_entry hf ih
  | optional _ ih => exact ih
  | sequence _ ih => exact ih
  | record hnames _ ih =>
    intro name hname
    obtain ⟨hmem, hnone⟩ := Shape.mem_aliases.mp hname
    obtain ⟨f, hf, hmem⟩ := Shape.mem_namesOfFields.mp hmem
    obtain ⟨l, hl⟩ := (Field.exists_zip hnames).1 f hf
    exact ih (f, l) hl name (Shape.mem_aliases.mpr ⟨hmem, hnone⟩)

/-- Unfolding is what following names from an empty path computes. -/
theorem layout_eq (h : table.Unfolds shape layout) : table.layout shape = .ok layout := by
  obtain ⟨found, hfound⟩ := (layout_ok_iff table shape).mpr h.wellDefined
  rw [hfound, h.unique (unfolds_of_layout hfound)]

/-- The parts of a layout unfold the types they are declared with, however many names lie above
them. -/
theorem part (h : table.Unfolds shape layout) :
    ∀ part ∈ layout.parts, table.Unfolds part.declared part := by
  induction h with
  | scalar => simp [Layout.parts]
  | entry _ _ _ ih => simpa using ih
  | optional h =>
    intro part hpart
    obtain rfl : part = _ := by simpa [Layout.parts] using hpart
    rwa [h.declared_eq]
  | sequence h =>
    intro part hpart
    obtain rfl : part = _ := by simpa [Layout.parts] using hpart
    rwa [h.declared_eq]
  | record hnames h =>
    intro part hpart
    obtain ⟨l, hl, rfl⟩ := List.mem_map.mp hpart
    obtain ⟨f, hf⟩ := (Field.exists_zip hnames).2 l hl
    have hpart := h (f, l) hf
    rwa [hpart.declared_eq]

end Unfolds

end AliasTable

/-! A condition on the field names of records, asked of every record of a shape. -/

namespace Shape

mutual

/-- Every record in a shape has field names with the given property. -/
def EveryRecord (P : List String → Prop) : Shape → Prop
  | .named _ => True
  | .optional pointee => EveryRecord P pointee
  | .sequence elem _ => EveryRecord P elem
  | .record fields => P (fields.map Field.name) ∧ EveryRecordOfFields P fields

def EveryRecordOfFields (P : List String → Prop) : List (Field Shape) → Prop
  | [] => True
  | ⟨_, type⟩ :: fields => EveryRecord P type ∧ EveryRecordOfFields P fields

end

theorem everyRecordOfFields_iff {P : List String → Prop} {fields : List (Field Shape)} :
    EveryRecordOfFields P fields ↔ ∀ f ∈ fields, f.type.EveryRecord P := by
  induction fields with
  | nil => simp [EveryRecordOfFields]
  | cons f fields ih =>
    obtain ⟨name, type⟩ := f
    simp [EveryRecordOfFields, ih]

end Shape

/-- Every record in the entries of a table has field names with the given property. -/
def AliasTable.EveryRecord (P : List String → Prop) (table : AliasTable) : Prop :=
  ∀ name shape, table.find? name = some shape → shape.EveryRecord P

theorem AliasTable.everyRecord_of_mem {P : List String → Prop} {table : AliasTable}
    (h : ∀ entry ∈ table.entries, entry.2.EveryRecord P) : table.EveryRecord P := by
  intro name shape hf
  obtain ⟨before, after, hentries, -⟩ := List.lookup_eq_some_iff.mp hf
  exact h (name, shape) (by simp [hentries])

namespace Layout

mutual

/-- Every record in a layout has field names with the given property. -/
def EveryRecord (P : List String → Prop) : Layout → Prop
  | .scalar _ _ => True
  | .optional _ pointee => EveryRecord P pointee
  | .sequence _ elem _ => EveryRecord P elem
  | .record _ fields => P (fields.map Field.name) ∧ EveryRecordOfFields P fields

def EveryRecordOfFields (P : List String → Prop) : List (Field Layout) → Prop
  | [] => True
  | ⟨_, type⟩ :: fields => EveryRecord P type ∧ EveryRecordOfFields P fields

end

theorem everyRecordOfFields_iff {P : List String → Prop} {fields : List (Field Layout)} :
    EveryRecordOfFields P fields ↔ ∀ f ∈ fields, f.type.EveryRecord P := by
  induction fields with
  | nil => simp [EveryRecordOfFields]
  | cons f fields ih =>
    obtain ⟨name, type⟩ := f
    simp [EveryRecordOfFields, ih]

@[simp] theorem everyRecord_declaredAs (P : List String → Prop) (type : Shape) (layout : Layout) :
    (layout.declaredAs type).EveryRecord P ↔ layout.EveryRecord P := by
  cases layout <;> simp [declaredAs, EveryRecord]

end Layout

/-- The records of a layout are those of the shape and of the entries of the table. -/
theorem AliasTable.Unfolds.everyRecord {table : AliasTable} {shape : Shape} {layout : Layout}
    {P : List String → Prop} (h : table.Unfolds shape layout) (htable : table.EveryRecord P)
    (hshape : shape.EveryRecord P) : layout.EveryRecord P := by
  induction h with
  | scalar => trivial
  | entry _ hf _ ih => simpa using ih (htable _ _ hf)
  | optional _ ih => exact ih hshape
  | sequence _ ih => exact ih hshape
  | record hnames _ ih =>
    refine ⟨hnames ▸ hshape.1, Layout.everyRecordOfFields_iff.mpr ?_⟩
    intro l hl
    obtain ⟨f, hf⟩ := (Field.exists_zip hnames).2 l hl
    have hfield := Shape.everyRecordOfFields_iff.mp hshape.2 f (List.of_mem_zip hf).1
    exact ih (f, l) hf hfield

end Unmarshal
