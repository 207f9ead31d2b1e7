import Unmarshal.Proofs.LocalNames

/-!
# Appended parameters and fields

Parameters are converted from left to right, and so are the fields of a record that has a place:
what is generated for the first of them stays as it is, its locals included, when more of them are
appended, and the first failure stays the first.
-/
namespace Unmarshal

/-- A longer list has the outcome of a shorter one that it begins with, as far as that goes: it
succeeds only if the shorter one does, with what `begins` demands of the two, and it fails as the
shorter one does. -/
def Foreruns {α : Type} (begins : α → α → Prop) (shorter longer : Except ResolveError α) : Prop :=
  (∀ whole, longer = .ok whole → ∃ part, shorter = .ok part ∧ begins part whole) ∧
    ∀ e, shorter = .error e → longer = .error e

section

variable {α β : Type} {begins : β → β → Prop}

theorem foreruns_error (e : ResolveError) : Foreruns begins (.error e) (.error e) := by
  constructor
  · intro whole h
    cases h
  · intro f h
    exact h

/-- What succeeds foreruns every way in which the longer list may go on. -/
theorem foreruns_map {part : β} {rest : Except ResolveError α} {join : α → β}
    (h : ∀ more, begins part (join more)) : Foreruns begins (.ok part) (rest.map join) := by
  constructor
  · intro whole hwhole
    cases rest with
    | error e => cases hwhole
    | ok more =>
      obtain rfl : join more = whole := by simpa [Except.map] using hwhole
      exact ⟨part, rfl, h more⟩
  · intro e he
    cases he

end

namespace Shape

theorem layoutFields_append (leaf : String → Except ResolveError Layout)
    (fields others : List (Field Shape)) :
    layoutFields leaf (fields ++ others) =
      match layoutFields leaf fields with
      | .ok layouts => (layoutFields leaf others).map (layouts ++ ·)
      | .error e => .error e := by
  induction fields with
  | nil => cases h : layoutFields leaf others <;> simp [layoutFields, h, Except.map]
  | cons f fields ih =>
    obtain ⟨name, type⟩ := f
    simp only [List.cons_append, layoutFields, ih]
    cases type.layoutWith leaf with
    | error e => rfl
    | ok layout =>
      cases layoutFields leaf fields with
      | error e => rfl
      | ok layouts => cases layoutFields leaf others <;> rfl

end Shape

namespace AliasTable

theorem layoutParams_append (table : AliasTable) (index : Nat) (params others : List Param) :
    table.layoutParams index (params ++ others) =
      match table.layoutParams index params with
      | .ok layouts => (table.layoutParams (index + params.length) others).map (layouts ++ ·)
      | .error e => .error e := by
  induction params generalizing index with
  | nil => cases h : table.layoutParams index others <;> simp [layoutParams, h, Except.map]
  | cons param params ih =>
    have hnext : index + (param :: params).length = index + 1 + params.length := by
      rw [List.length_cons]
      omega
    simp only [List.cons_append, layoutParams, ih, hnext]
    cases table.layout param.shape with
    | error e => rfl
    | ok layout =>
      cases table.layoutParams (index + 1) params with
      | error e => rfl
      | ok layouts => cases table.layoutParams (index + 1 + params.length) others <;> rfl

end AliasTable

namespace Layout

theorem fillFields_append (options : Options) (base : String) (source target : Expr)
    (fields others : List (Field Layout)) (names : Names) :
    fillFields options base source target (fields ++ others) names =
      let first := fillFields options base source target fields names
      let rest := fillFields options base source target others first.2
      (first.1 ++ rest.1, rest.2) := by
  induction fields generalizing names with
  | nil => rfl
  | cons f fields ih =>
    obtain ⟨name, type⟩ := f
    simp [fillFields, ih]

end Layout

namespace Arguments

theorem emit_append (options : Options) (index : Nat) (layouts others : List (Field Layout))
    (names : Names) :
    emit options index (layouts ++ others) names =
      let first := emit options index layouts names
      let rest := emit options (index + layouts.length) others
        (namesAfter options index layouts names)
      ⟨first.values ++ rest.values, first.code ++ rest.code⟩ := by
  induction layouts generalizing index names with
  | nil => rfl
  | cons f layouts ih =>
    obtain ⟨base, layout⟩ := f
    have hnext : index + (⟨base, layout⟩ :: layouts : List (Field Layout)).length =
        index + 1 + layouts.length := by
      rw [List.length_cons]
      omega
    rw [hnext]
    simp only [List.cons_append, emit, namesAfter, ih, List.append_assoc]

/-- Both lists begin with those of `part`. -/
def Begins (part whole : Arguments) : Prop :=
  part.values <+: whole.values ∧ part.code <+: whole.code

theorem begins_emit_append (options : Options) (index : Nat) (layouts others : List (Field Layout))
    (names : Names) :
    (emit options index layouts names).Begins (emit options index (layouts ++ others) names) := by
  rw [emit_append]
  exact ⟨List.prefix_append _ _, List.prefix_append _ _⟩

end Arguments

/-- A binding of the same function whose arguments begin with those of `part`. -/
def Binding.Begins (part whole : Binding) : Prop :=
  part.name = whole.name ∧ part.arguments.Begins whole.arguments

/-- A resolution with the same value whose statements begin with those of `part`. -/
def Resolution.Begins (part whole : Resolution) : Prop :=
  part.value = whole.value ∧ part.code <+: whole.code

namespace AliasTable

variable {table : AliasTable}

/-- Whatever is made of the layouts of parameters, more parameters come behind it. -/
theorem foreruns_layoutParams {α : Type} {begins : α → α → Prop} {make : List (Field Layout) → α}
    (h : ∀ layouts others, begins (make layouts) (make (layouts ++ others)))
    (params others : List Param) :
    Foreruns begins ((table.layoutParams 0 params).map make)
      ((table.layoutParams 0 (params ++ others)).map make) := by
  rw [layoutParams_append]
  cases table.layoutParams 0 params with
  | error e => exact foreruns_error e
  | ok layouts =>
    have hjoin : ∀ rest : Except ResolveError (List (Field Layout)),
        (rest.map (layouts ++ ·)).map make = rest.map fun more => make (layouts ++ more) := by
      intro rest
      cases rest <;> rfl
    show Foreruns begins (.ok (make layouts)) _
    rw [hjoin]
    apply foreruns_map
    exact h layouts

/-- A record in a place, resolved from any names in use, goes on with the fields appended to it. -/
theorem foreruns_record (names : Names) (options : Options) (base : String)
    (fields others : List (Field Shape)) (source place : Expr) :
    Foreruns Resolution.Begins
      (table.resolveFrom names options base (.record fields) source (some place))
      (table.resolveFrom names options base (.record (fields ++ others)) source (some place)) := by
  unfold resolveFrom layout
  simp only [Shape.layoutWith, Shape.layoutFields_append]
  cases Shape.layoutFields (table.follow []) fields with
  | error e => exact foreruns_error e
  | ok layouts =>
    let fill (layouts : List (Field Layout)) : Resolution :=
      ⟨(Layout.fillFields options base source place layouts names).1, place⟩
    have hbegins : ∀ more, (fill layouts).Begins (fill (layouts ++ more)) := by
      intro more
      refine ⟨rfl, ?_⟩
      simp only [fill, Layout.fillFields_append]
      exact List.prefix_append _ _
    have hrest (rest : Except ResolveError (List (Field Layout))) :
        Foreruns Resolution.Begins (.ok (fill layouts))
          (rest.map fun more => fill (layouts ++ more)) :=
      foreruns_map hbegins
    cases h : Shape.layoutFields (table.follow []) others with
    | error e => exact hrest (.error e)
    | ok more => exact hrest (.ok more)

/-- Earlier arguments do not depend on later ones. Where parameters are appended to a function or to
an unnamed call, or fields to a record that has a place, success needs the success of the shorter
list, whose values and statements stay in front as they are; and its failure is the failure of the
longer one. -/
theorem earlier_independent_of_later (table : AliasTable) (options : Options) :
    (∀ (name : String) (params others : List Param),
      Foreruns Binding.Begins (table.bind options ⟨name, params⟩)
        (table.bind options ⟨name, params ++ others⟩)) ∧
    (∀ params others : List Param,
      Foreruns Arguments.Begins (table.resolveArguments options params)
        (table.resolveArguments options (params ++ others))) ∧
    ∀ (names : Names) (base : String) (fields others : List (Field Shape)) (source place : Expr),
      Foreruns Resolution.Begins
        (table.resolveFrom names options base (.record fields) source (some place))
        (table.resolveFrom names options base (.record (fields ++ others)) source
          (some place)) := by
  refine ⟨?_, ?_, ?_⟩
  · intro name params others
    apply foreruns_layoutParams
    intro layouts more
    exact ⟨rfl, Arguments.begins_emit_append options 0 layouts more _⟩
  · intro params others
    apply foreruns_layoutParams
    intro layouts more
    exact Arguments.begins_emit_append options 0 layouts more _
  · intro names base fields others source place
    exact foreruns_record names options base fields others source place

end AliasTable

end Unmarshal
