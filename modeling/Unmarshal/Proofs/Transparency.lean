import Unmarshal.Proofs.Expansion

/-!
# Transparency of names

A name in a type matters to the code for it only as the name that storage is declared with. What a
shape resolves to is, up to the types it mentions, what its expansion resolves to without a table.
-/
namespace Unmarshal

/-! ## Expansion as a function -/

namespace Shape

mutual

/-- A shape with other shapes in the places of its names. -/
def mapNames (leaf : String → Shape) : Shape → Shape
  | .named name => leaf name
  | .optional pointee => .optional (mapNames leaf pointee)
  | .sequence elem extent => .sequence (mapNames leaf elem) extent
  | .record fields => .record (mapNamesOfFields leaf fields)

def mapNamesOfFields (leaf : String → Shape) : List (Field Shape) → List (Field Shape)
  | [] => []
  | ⟨name, type⟩ :: fields => ⟨name, mapNames leaf type⟩ :: mapNamesOfFields leaf fields

end

end Shape

namespace AliasTable

/-- What a name stands for, with the names in it expanded. A scalar stays; so does a name that
stands for nothing, or is being expanded already. -/
def expandName (table : AliasTable) (path : List String) (name : String) : Shape :=
  match Scalar.ofName? name with
  | some _ => .named name
  | none =>
    if name ∈ path then .named name
    else
      match _known : table.find? name with
      | none => .named name
      | some shape => shape.mapNames fun inner => table.expandName (name :: path) inner
termination_by table.unvisited path
decreasing_by exact unvisited_cons_lt (mem_keys_of_find? _known) (by assumption)

/-- A shape with every name replaced, again and again, by what it stands for. -/
def expand (table : AliasTable) (shape : Shape) : Shape := shape.mapNames (table.expandName [])

end AliasTable

private theorem mapNamesOfFields_of_zip {leaf : String → Shape} {fields : List (Field Shape)}
    {layouts : List (Field Layout)} (hnames : fields.map Field.name = layouts.map Field.name)
    (h : ∀ p ∈ fields.zip layouts, p.1.type.mapNames leaf = p.2.type.expanded) :
    Shape.mapNamesOfFields leaf fields = Layout.expandedFields layouts := by
  induction fields generalizing layouts with
  | nil =>
    obtain rfl : layouts = [] := by simpa using hnames.symm
    rfl
  | cons f fields ih =>
    cases layouts with
    | nil => simp at hnames
    | cons l layouts =>
      simp only [List.map_cons, List.cons.injEq] at hnames
      have hFirst := h (f, l) (by simp)
      have hOthers := ih hnames.2 (fun p hp => h p (by simp [hp]))
      simp only [Shape.mapNamesOfFields, hFirst, hOthers, Layout.expandedFields, hnames.1]

theorem Shape.mapNames_of_layoutWith {leaf : String → Except ResolveError Layout}
    {other : String → Shape} {shape : Shape} {layout : Layout}
    (hleaf : ∀ name layout, leaf name = .ok layout → other name = layout.expanded)
    (h : shape.layoutWith leaf = .ok layout) : shape.mapNames other = layout.expanded := by
  apply Shape.layoutWith_induction (motive := fun shape layout =>
    shape.mapNames other = layout.expanded) hleaf _ _ _ h
  · intro pointee layout ih
    rw [Shape.mapNames, ih, Layout.expanded]
  · intro elem extent layout ih
    rw [Shape.mapNames, ih, Layout.expanded]
  · intro fields layouts hnames hparts
    rw [Shape.mapNames, mapNamesOfFields_of_zip hnames hparts, Layout.expanded]

namespace AliasTable

variable {table : AliasTable}

theorem expandName_entry {path : List String} {name : String} {shape : Shape}
    (hn : Scalar.ofName? name = none) (hp : name ∉ path) (hf : table.find? name = some shape) :
    table.expandName path name = shape.mapNames (table.expandName (name :: path)) := by
  rw [expandName, hn]
  simp only [hp, if_false]
  split
  · next hnone => rw [hf] at hnone; cases hnone
  · next other hother =>
    rw [hf] at hother
    cases hother
    rfl

theorem expandName_of_follow {path : List String} {name : String} {layout : Layout}
    (h : table.follow path name = .ok layout) : table.expandName path name = layout.expanded := by
  apply follow_ok_induction (motive := fun path name layout =>
    table.expandName path name = layout.expanded) _ _ h
  · intro path name type hs
    rw [expandName, hs, Layout.expanded, Scalar.name_of_ofName? hs]
  · intro path name shape layout hn hp hf hl ih
    rw [expandName_entry hn hp hf, Layout.expanded_declaredAs]
    exact Shape.mapNames_of_layoutWith ih hl

/-- The expansion of a shape is what its layout keeps besides the types it is declared with. -/
theorem Unfolds.expand_eq {shape : Shape} {layout : Layout} (h : table.Unfolds shape layout) :
    table.expand shape = layout.expanded :=
  Shape.mapNames_of_layoutWith (fun _ _ => expandName_of_follow) h.layout_eq

end AliasTable

/-! ## The layout of an expansion -/

namespace Layout

mutual

/-- A layout whose places are declared with expanded types. -/
def ground : Layout → Layout
  | .scalar _ type => .scalar (.named type.name) type
  | .optional _ pointee => .optional (.optional pointee.expanded) (ground pointee)
  | .sequence _ elem extent => .sequence (.sequence elem.expanded extent) (ground elem) extent
  | .record _ fields => .record (.record (expandedFields fields)) (groundFields fields)

def groundFields : List (Field Layout) → List (Field Layout)
  | [] => []
  | ⟨name, type⟩ :: fields => ⟨name, ground type⟩ :: groundFields fields

end

theorem groundFields_eq_map (fields : List (Field Layout)) :
    groundFields fields = fields.map fun f => ⟨f.name, f.type.ground⟩ := by
  induction fields with
  | nil => rfl
  | cons f fields ih => simp [groundFields, ih]

theorem declared_ground (layout : Layout) : layout.ground.declared = layout.expanded := by
  cases layout <;> simp [ground, declared, expanded]

/-- An expanded shape unfolds without a table, into places that are declared with what they are. -/
theorem unfolds_ground (layout : Layout) :
    AliasTable.empty.Unfolds layout.expanded layout.ground := by
  induction layout using Layout.induction with
  | scalar declared type => exact .scalar (Scalar.ofName?_name type)
  | optional declared pointee ih => exact .optional ih
  | sequence declared elem extent ih => exact .sequence ih
  | record declared fields ih =>
    rw [expanded, ground, groundFields_eq_map]
    refine .record (by simp [expandedFields_eq_map]) ?_
    rw [expandedFields_eq_map, List.zip_map']
    intro p hp
    obtain ⟨f, hf, rfl⟩ := List.mem_map.mp hp
    exact ih f hf

end Layout

/-! ## Types in code -/

namespace Expr

mutual

/-- The types that an expression mentions. -/
def types : Expr → List Shape
  | .ident _ | .int _ | .str _ | .absent _ _ => []
  | .access value _ args => types value ++ allTypes args
  | .call callee args => types callee ++ allTypes args
  | .cast _ value => types value
  | .field base _ => types base
  | .index base position => types base ++ types position
  | .deref pointer => types pointer
  | .not operand => types operand
  | .binary _ left right => types left ++ types right
  | .new type => [type]
  | .make type length => type :: types length
  | .composite type => [type]

def allTypes : List Expr → List Shape
  | [] => []
  | e :: es => types e ++ allTypes es

end

mutual

/-- An expression with other types in the places of those it mentions. -/
def mapTypes (f : Shape → Shape) : Expr → Expr
  | .ident name => .ident name
  | .int value => .int value
  | .str text => .str text
  | .absent package kind => .absent package kind
  | .access value accessor args => .access (mapTypes f value) accessor (mapAllTypes f args)
  | .call callee args => .call (mapTypes f callee) (mapAllTypes f args)
  | .cast type value => .cast type (mapTypes f value)
  | .field base name => .field (mapTypes f base) name
  | .index base position => .index (mapTypes f base) (mapTypes f position)
  | .deref pointer => .deref (mapTypes f pointer)
  | .not operand => .not (mapTypes f operand)
  | .binary op left right => .binary op (mapTypes f left) (mapTypes f right)
  | .new type => .new (f type)
  | .make type length => .make (f type) (mapTypes f length)
  | .composite type => .composite (f type)

def mapAllTypes (f : Shape → Shape) : List Expr → List Expr
  | [] => []
  | e :: es => mapTypes f e :: mapAllTypes f es

end

private theorem mapAllTypes_of_allTypes_eq_nil {f : Shape → Shape} {es : List Expr}
    (ih : ∀ e ∈ es, e.types = [] → e.mapTypes f = e) (h : allTypes es = []) :
    mapAllTypes f es = es := by
  induction es with
  | nil => rfl
  | cons e es ihRest =>
    obtain ⟨hFirst, hRest⟩ := List.append_eq_nil_iff.mp h
    rw [mapAllTypes, ih e (by simp) hFirst, ihRest (fun e he => ih e (by simp [he])) hRest]

theorem mapTypes_of_types_eq_nil {f : Shape → Shape} {e : Expr} (h : e.types = []) :
    e.mapTypes f = e := by
  induction e using Expr.induction with
  | ident | int | str | absent => rfl
  | new type => cases h
  | make type length => cases h
  | composite type => cases h
  | access value accessor args ih ihArgs =>
    obtain ⟨hValue, hArgs⟩ := List.append_eq_nil_iff.mp h
    rw [mapTypes, ih hValue, mapAllTypes_of_allTypes_eq_nil ihArgs hArgs]
  | call callee args ih ihArgs =>
    obtain ⟨hCallee, hArgs⟩ := List.append_eq_nil_iff.mp h
    rw [mapTypes, ih hCallee, mapAllTypes_of_allTypes_eq_nil ihArgs hArgs]
  | cast type value ih => rw [mapTypes, ih h]
  | field base name ih => rw [mapTypes, ih h]
  | deref pointer ih => rw [mapTypes, ih h]
  | not operand ih => rw [mapTypes, ih h]
  | index base position ihBase ihPosition =>
    obtain ⟨hBase, hPosition⟩ := List.append_eq_nil_iff.mp h
    rw [mapTypes, ihBase hBase, ihPosition hPosition]
  | binary op left right ihLeft ihRight =>
    obtain ⟨hLeft, hRight⟩ := List.append_eq_nil_iff.mp h
    rw [mapTypes, ihLeft hLeft, ihRight hRight]

section

variable (f : Shape → Shape) (e : Expr)

@[simp] theorem mapTypes_ident (name : String) : (ident name).mapTypes f = .ident name := rfl

@[simp] theorem mapTypes_ask (accessor : Accessor) :
    (e.ask accessor).mapTypes f = (e.mapTypes f).ask accessor := rfl

@[simp] theorem mapTypes_property (name : String) :
    (e.property name).mapTypes f = (e.mapTypes f).property name := rfl

@[simp] theorem mapTypes_element (counter : String) :
    (e.element counter).mapTypes f = (e.mapTypes f).element counter := rfl

@[simp] theorem mapTypes_read (type : Scalar) :
    (type.read e).mapTypes f = type.read (e.mapTypes f) := by
  unfold Scalar.read
  cases type.cast? <;> rfl

end

end Expr

namespace Stmt

mutual

/-- A statement with other types in the places of those it mentions. -/
def mapTypes (f : Shape → Shape) : Stmt → Stmt
  | .declare name type => .declare name (f type)
  | .define name value => .define name (value.mapTypes f)
  | .assign target value => .assign (target.mapTypes f) (value.mapTypes f)
  | .branch none condition body => .branch none (condition.mapTypes f) (mapAllTypes f body)
  | .branch (some init) condition body =>
    .branch (some (mapTypes f init)) (condition.mapTypes f) (mapAllTypes f body)
  | .loop counter bound body => .loop counter (bound.mapTypes f) (mapAllTypes f body)

def mapAllTypes (f : Shape → Shape) : List Stmt → List Stmt
  | [] => []
  | s :: rest => mapTypes f s :: mapAllTypes f rest

end

theorem mapAllTypes_append (f : Shape → Shape) (first second : List Stmt) :
    mapAllTypes f (first ++ second) = mapAllTypes f first ++ mapAllTypes f second := by
  induction first with
  | nil => rfl
  | cons s rest ih => simp [mapAllTypes, ih]

@[simp] theorem mapTypes_whenPresent (f : Shape → Shape) (options : Options) (source : Expr)
    (body : List Stmt) :
    (options.whenPresent source body).mapTypes f =
      options.whenPresent (source.mapTypes f) (mapAllTypes f body) := rfl

end Stmt

/-- The types of a resolution, wherever it mentions them. -/
def Resolution.mapTypes (f : Shape → Shape) (resolution : Resolution) : Resolution :=
  ⟨Stmt.mapAllTypes f resolution.code, resolution.value.mapTypes f⟩

/-! ## Code for an expansion -/

namespace Layout

variable {table : AliasTable} (options : Options)

private theorem fillFields_ground {f : Shape → Shape} {fields : List (Field Layout)}
    (ih : ∀ field ∈ fields, ∀ base source target names, source.mapTypes f = source →
      target.mapTypes f = target →
      field.type.ground.fill options base source target names =
        (Stmt.mapAllTypes f (field.type.fill options base source target names).1,
          (field.type.fill options base source target names).2))
    (base : String) {source target : Expr} (hsource : source.mapTypes f = source)
    (htarget : target.mapTypes f = target) (names : Names) :
    fillFields options base source target (groundFields fields) names =
      (Stmt.mapAllTypes f (fillFields options base source target fields names).1,
        (fillFields options base source target fields names).2) := by
  induction fields generalizing names with
  | nil => rfl
  | cons field fields ihFields =>
    obtain ⟨name, type⟩ := field
    have hFirst := ih ⟨name, type⟩ (by simp) (base ++ name) (source.property name)
      (.field target name) names (by simp [hsource]) (by simp [htarget, Expr.mapTypes])
    have hOthers := ihFields (fun field hf => ih field (by simp [hf]))
      (type.fill options (base ++ name) (source.property name) (.field target name) names).2
    simp only [groundFields, fillFields, hFirst, hOthers, Stmt.mapAllTypes_append]

/-- Filling a place through the names of a table and through their expansion differs only in the
types that are allocated. The names in use are the same at every step. -/
theorem fill_ground {layout : Layout} (h : table.Unfolds layout.declared layout) (base : String)
    {source target : Expr} (hsource : source.mapTypes table.expand = source)
    (htarget : target.mapTypes table.expand = target) (names : Names) :
    layout.ground.fill options base source target names =
      (Stmt.mapAllTypes table.expand (layout.fill options base source target names).1,
        (layout.fill options base source target names).2) := by
  induction layout using Layout.induction generalizing base source target names with
  | scalar declared type =>
    simp [ground, fill, Stmt.mapAllTypes, Stmt.mapTypes, hsource, htarget]
  | optional declared pointee ih =>
    have hPointee : table.Unfolds pointee.declared pointee := h.part pointee (by simp [parts])
    have hInner := ih hPointee (base ++ "Elt") hsource
      (show (Expr.deref target).mapTypes table.expand = .deref target by
        simp [Expr.mapTypes, htarget]) names
    simp [ground, fill, hInner, Stmt.mapAllTypes, Stmt.mapTypes, Expr.mapTypes, hsource, htarget,
      declared_ground, hPointee.expand_eq]
  | sequence declared elem extent ih =>
    have hElem : table.Unfolds elem.declared elem := h.part elem (by simp [parts])
    have hTarget (counter : String) :
        (Expr.index target (.ident counter)).mapTypes table.expand =
          .index target (.ident counter) := by
      simp [Expr.mapTypes, htarget]
    have hSource (counter : String) :
        (source.element counter).mapTypes table.expand = source.element counter := by
      simp [hsource]
    cases extent with
    | fixed length =>
      simp [ground, fill, ih hElem _ (hSource _) (hTarget _), Stmt.mapAllTypes, Stmt.mapTypes,
        Expr.mapTypes]
    | dynamic =>
      have hWhole : table.expand declared = .sequence elem.expanded .dynamic := by
        simpa [Layout.declared, expanded] using h.expand_eq
      simp [ground, fill, ih hElem _ (hSource _) (hTarget _), Stmt.mapAllTypes, Stmt.mapTypes,
        Expr.mapTypes, hsource, htarget, hWhole]
  | record declared fields ih =>
    refine fillFields_ground options ?_ base hsource htarget names
    intro field hf base source target names hsource htarget
    exact ih field hf (h.part field.type (List.mem_map_of_mem hf)) base hsource htarget names

/-- A place of its own is declared with the expanded type, under the same name. -/
theorem bind_ground {layout : Layout} (h : table.Unfolds layout.declared layout) (base : String)
    {source : Expr} (hsource : source.mapTypes table.expand = source) (names : Names) :
    layout.ground.bind options base source names =
      ((layout.bind options base source names).1.mapTypes table.expand,
        (layout.bind options base source names).2) := by
  have hPlace : table.expand layout.declared = layout.ground.declared := by
    rw [h.expand_eq, declared_ground]
  have hFill := fill_ground options h (names.claim base).1 hsource
    (Expr.mapTypes_ident _ (names.claim base).1) (names.claim base).2
  cases layout with
  | scalar declared type => simp [ground, bind, Resolution.mapTypes, Stmt.mapAllTypes, hsource]
  | optional declared pointee =>
    simp only [ground, Layout.declared] at hFill hPlace
    simp [ground, bind, hFill, Resolution.mapTypes, Stmt.mapAllTypes, Stmt.mapTypes, hPlace]
  | record declared fields =>
    simp only [ground, Layout.declared] at hFill hPlace
    simp [ground, bind, hFill, Resolution.mapTypes, Stmt.mapAllTypes, Stmt.mapTypes, Expr.mapTypes,
      hPlace]
  | sequence declared elem extent =>
    simp only [ground, Layout.declared] at hFill hPlace
    cases extent with
    | fixed length =>
      simp [ground, bind, hFill, Resolution.mapTypes, Stmt.mapAllTypes, Stmt.mapTypes, hPlace]
    | dynamic =>
      -- the elements of a slice that is bound are filled as those of a slice that is there
      have hElem := h.part elem (by simp [parts])
      let place := names.claim base
      let length := place.2.claim (place.1 ++ "Len")
      let counter := length.2.claim (place.1 ++ "Idx")
      have hInner := fill_ground options hElem (place.1 ++ "Elt")
        (show (source.element counter.1).mapTypes table.expand = source.element counter.1 by
          simp [hsource])
        (show (Expr.index (.ident place.1) (.ident counter.1)).mapTypes table.expand =
          .index (.ident place.1) (.ident counter.1) by simp [Expr.mapTypes]) counter.2
      simp [ground, bind, place, length, counter, hInner, Resolution.mapTypes, Stmt.mapAllTypes,
        Stmt.mapTypes, Expr.mapTypes, hsource, hPlace]

theorem emit_ground {layout : Layout} (h : table.Unfolds layout.declared layout) (base : String)
    {source : Expr} {target : Option Expr} (hsource : source.mapTypes table.expand = source)
    (htarget : ∀ place, target = some place → place.mapTypes table.expand = place)
    (names : Names) :
    layout.ground.emit options base source target names =
      (layout.emit options base source target names).mapTypes table.expand := by
  cases target with
  | none => simp only [emit, bind_ground options h base hsource]
  | some place =>
    have hplace := htarget place rfl
    simp only [emit, fill_ground options h base hsource hplace, Resolution.mapTypes, hplace]

end Layout

namespace AliasTable

variable {table : AliasTable}

theorem resolve_eq_ok_iff {options : Options} {base : String} {shape : Shape} {source : Expr}
    {target : Option Expr} {resolution : Resolution} :
    table.resolve options base shape source target = .ok resolution ↔
      ∃ layout, table.layout shape = .ok layout ∧
        resolution = layout.emit options base source target (.reserved options) := by
  unfold resolve
  cases table.layout shape with
  | error e => simp
  | ok layout => simp [eq_comm]

/-- What a shape resolves to is, with its types expanded, what the expansion resolves to without a
table. The source and the destination are free of types, so that the ones in the code are those of
declarations and allocations. -/
theorem resolve_expand {options : Options} {base : String} {shape : Shape} {source : Expr}
    {target : Option Expr} {resolution : Resolution}
    (h : table.resolve options base shape source target = .ok resolution)
    (hsource : source.types = []) (htarget : ∀ place, target = some place → place.types = []) :
    table.Expands shape (table.expand shape) ∧
      empty.resolve options base (table.expand shape) source target =
        .ok (resolution.mapTypes table.expand) := by
  obtain ⟨layout, hLayout, rfl⟩ := resolve_eq_ok_iff.mp h
  have hUnfolds := unfolds_of_layout hLayout
  have hDeclared : table.Unfolds layout.declared layout := by rwa [hUnfolds.declared_eq]
  have hCode := Layout.emit_ground options hDeclared base (Expr.mapTypes_of_types_eq_nil hsource)
    (fun place hplace => Expr.mapTypes_of_types_eq_nil (htarget place hplace)) (.reserved options)
  rw [hUnfolds.expand_eq]
  constructor
  · exact hUnfolds.expands
  · exact resolve_eq_ok_iff.mpr ⟨layout.ground, layout.unfolds_ground.layout_eq, hCode.symm⟩

/-- A name for a name of a slice. -/
def readings : AliasTable :=
  ⟨[("Reading", .named "Sample"), ("Sample", .sequence (.named "float32") .dynamic)], by decide⟩

theorem resolve_expand_readings :
    ∃ resolution, readings.resolve {} "r" (.optional (.named "Reading")) (.ident "v")
        (some (.ident "d")) = .ok resolution ∧
      Expr.types (.ident "v") = [] ∧
      (∀ place, some (Expr.ident "d") = some place → place.types = []) ∧
      readings.Expands (.optional (.named "Reading"))
        (.optional (.sequence (.named "float32") .dynamic)) ∧
      empty.resolve {} "r" (.optional (.sequence (.named "float32") .dynamic)) (.ident "v")
        (some (.ident "d")) = .ok (resolution.mapTypes readings.expand) := by
  have hLayout : readings.layout (.optional (.named "Reading")) =
      .ok (.optional (.optional (.named "Reading"))
        (.sequence (.named "Reading") (.scalar (.named "float32") .float32) .dynamic)) := by cbv
  have hResolve : readings.resolve {} "r" (.optional (.named "Reading")) (.ident "v")
      (some (.ident "d")) = .ok _ :=
    resolve_eq_ok_iff.mpr ⟨_, hLayout, rfl⟩
  have hExpand : readings.expand (.optional (.named "Reading")) =
      .optional (.sequence (.named "float32") .dynamic) := by cbv
  have hSource : Expr.types (.ident "v") = [] := rfl
  have hTarget : ∀ place, some (Expr.ident "d") = some place → place.types = [] := by
    intro place hplace
    cases hplace
    rfl
  obtain ⟨hExpands, hEmpty⟩ := resolve_expand hResolve hSource hTarget
  rw [hExpand] at hExpands hEmpty
  exact ⟨_, hResolve, hSource, hTarget, hExpands, hEmpty⟩

end AliasTable

end Unmarshal
