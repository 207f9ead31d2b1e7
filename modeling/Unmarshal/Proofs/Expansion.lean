import Unmarshal.Proofs.Unfolding

/-!
# Expansion of shapes

A shape with every name replaced by what it stands for. What a layout keeps besides its declared
types is the expansion of the shape that it unfolds.
-/
namespace Unmarshal

namespace AliasTable

/-- A scalar stays, another name is replaced by the expansion of its entry, and the other forms are
expanded part by part. -/
inductive Expands (table : AliasTable) : Shape → Shape → Prop where
  | scalar {name : String} {type : Scalar} (hs : Scalar.ofName? name = some type) :
      Expands table (.named name) (.named name)
  | entry {name : String} {shape expanded : Shape} (hn : Scalar.ofName? name = none)
      (hf : table.find? name = some shape) (h : Expands table shape expanded) :
      Expands table (.named name) expanded
  | optional {pointee expanded : Shape} (h : Expands table pointee expanded) :
      Expands table (.optional pointee) (.optional expanded)
  | sequence {elem expanded : Shape} {extent : Extent} (h : Expands table elem expanded) :
      Expands table (.sequence elem extent) (.sequence expanded extent)
  | record {fields expanded : List (Field Shape)}
      (hnames : fields.map Field.name = expanded.map Field.name)
      (h : ∀ p ∈ fields.zip expanded, Expands table p.1.type p.2.type) :
      Expands table (.record fields) (.record expanded)

theorem Expands.unique {table : AliasTable} {shape first second : Shape}
    (h : table.Expands shape first) (k : table.Expands shape second) : first = second := by
  induction h generalizing second with
  | scalar hs =>
    cases k with
    | scalar => rfl
    | entry hn => rw [hs] at hn; cases hn
  | entry hn hf _ ih =>
    cases k with
    | scalar hs => rw [hn] at hs; cases hs
    | entry _ hg k =>
      rw [hf] at hg
      cases hg
      exact ih k
  | optional _ ih => cases k with | optional k => rw [ih k]
  | sequence _ ih => cases k with | sequence k => rw [ih k]
  | record hnames _ ih =>
    cases k with
    | record hothers k => rw [Field.eq_of_zip hnames hothers (fun p hp _ => ih p hp) k]

end AliasTable

namespace Layout

mutual

/-- The shape of a layout down to its scalars. -/
def expanded : Layout → Shape
  | .scalar _ type => .named type.name
  | .optional _ pointee => .optional (expanded pointee)
  | .sequence _ elem extent => .sequence (expanded elem) extent
  | .record _ fields => .record (expandedFields fields)

def expandedFields : List (Field Layout) → List (Field Shape)
  | [] => []
  | ⟨name, type⟩ :: fields => ⟨name, expanded type⟩ :: expandedFields fields

end

@[simp] theorem expanded_declaredAs (type : Shape) (layout : Layout) :
    (layout.declaredAs type).expanded = layout.expanded := by
  cases layout <;> simp [declaredAs, expanded]

theorem expandedFields_eq_map (fields : List (Field Layout)) :
    expandedFields fields = fields.map fun f => ⟨f.name, f.type.expanded⟩ := by
  induction fields with
  | nil => rfl
  | cons f fields ih => simp [expandedFields, ih]

/-- An expanded shape has the records of its layout. -/
theorem everyRecord_expanded {P : List String → Prop} {layout : Layout} :
    layout.expanded.EveryRecord P ↔ layout.EveryRecord P := by
  induction layout using Layout.induction with
  | scalar declared type => simp [expanded, Shape.EveryRecord, EveryRecord]
  | optional declared pointee ih => simpa [expanded, Shape.EveryRecord, EveryRecord] using ih
  | sequence declared elem extent ih => simpa [expanded, Shape.EveryRecord, EveryRecord] using ih
  | record declared fields ih =>
    have hfields : (∀ f ∈ fields, f.type.expanded.EveryRecord P) ↔
        ∀ f ∈ fields, f.type.EveryRecord P :=
      forall_congr' fun f => forall_congr' fun hf => ih f hf
    simp only [expanded, expandedFields_eq_map, Shape.EveryRecord, EveryRecord,
      Shape.everyRecordOfFields_iff, everyRecordOfFields_iff, List.map_map, List.forall_mem_map]
    rw [← hfields]
    rfl

end Layout

theorem AliasTable.Unfolds.expands {table : AliasTable} {shape : Shape} {layout : Layout}
    (h : table.Unfolds shape layout) : table.Expands shape layout.expanded := by
  induction h with
  | scalar hs =>
    rw [Layout.expanded, Scalar.name_of_ofName? hs]
    exact .scalar hs
  | entry hn hf _ ih =>
    rw [Layout.expanded_declaredAs]
    exact .entry hn hf ih
  | optional _ ih => exact .optional ih
  | sequence _ ih => exact .sequence ih
  | record hnames _ ih =>
    rw [Layout.expanded, Layout.expandedFields_eq_map]
    refine .record (by simp [hnames]) ?_
    intro p hp
    rw [List.zip_map_right] at hp
    obtain ⟨q, hq, rfl⟩ := List.mem_map.mp hp
    exact ih q hq

end Unmarshal
