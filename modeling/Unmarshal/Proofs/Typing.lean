import Unmarshal.Proofs.Execution.Underlying
import Unmarshal.Proofs.Freshness

/-!
# Types of generated code

Every local that a value is stored in has the type of its parameter as written, and the type of a
place follows from there by selection, with names followed only at the head of what is selected
from. In these types every allocation, assignment and selection of the code is in order.
-/
namespace Unmarshal

/-- A field is found by its name where no other field has it. -/
theorem Field.find?_map_of_mem {α β : Type} (g : α → β) {fields : List (Field α)} {f : Field α}
    (hdistinct : (fields.map Field.name).Nodup) (hf : f ∈ fields) :
    (fields.map fun e => (⟨e.name, g e.type⟩ : Field β)).find? (fun e => e.name == f.name) =
      some ⟨f.name, g f.type⟩ := by
  induction fields with
  | nil => cases hf
  | cons e fields ih =>
    obtain ⟨hnew, hdistinct⟩ := List.nodup_cons.mp hdistinct
    cases hf with
    | head => simp
    | tail _ hf =>
      have hne : e.name ≠ f.name := fun h => hnew (h ▸ List.mem_map_of_mem hf)
      simp [hne, ih hdistinct hf]

namespace Expr

/-- The type of a value that is read from a dynamic value: the one it is cast to, or what the
accessor yields. -/
def yields? : Expr → Option String
  | .cast type _ => some type
  | .access _ .bool _ => some "bool"
  | .access _ .string _ => some "string"
  | .access _ .int _ => some "int"
  | .access _ .float _ => some "float64"
  | _ => none

theorem yields?_read (type : Scalar) (source : Expr) :
    (type.read source).yields? = some type.name := by
  cases type <;> rfl

theorem read_ne_ident (type : Scalar) (source : Expr) (name : String) :
    type.read source ≠ .ident name := by
  cases type <;> exact nofun

/-- The local that an expression is. -/
def local? : Expr → Option String
  | .ident name => some name
  | _ => none

theorem local?_eq_some_iff {e : Expr} {name : String} :
    e.local? = some name ↔ e = .ident name := by
  cases e <;> simp [local?]

end Expr

/-- What types depend on: the named types, the name of the argument list, and the types of the
locals that values are stored in. -/
structure Context where
  table : AliasTable
  args : String
  storage : List (String × Shape)

namespace Context

variable (Γ : Context)

/-- The type of a place. -/
def typeOf : Expr → Option Shape
  | .ident name => Γ.storage.lookup name
  | .deref pointer =>
    match (typeOf pointer).bind Γ.table.underlying? with
    | some (.optional pointee) => some pointee
    | _ => none
  | .index base _ =>
    match (typeOf base).bind Γ.table.underlying? with
    | some (.sequence elem _) => some elem
    | _ => none
  | .field base name =>
    match (typeOf base).bind Γ.table.underlying? with
    | some (.record fields) => (fields.find? fun f => f.name == name).map Field.type
    | _ => none
  | _ => none

mutual

/-- An expression that allocates nothing and selects only what is there: an argument by its
position, or a part that the type of a place has. -/
def Selects : Expr → Prop
  | .ident _ | .int _ | .str _ | .absent _ _ => True
  | .access value _ args => Selects value ∧ AllSelect args
  | .call callee args => Selects callee ∧ AllSelect args
  | .cast _ value => Selects value
  | .not operand => Selects operand
  | .binary _ left right => Selects left ∧ Selects right
  | .field base name => Selects base ∧ (Γ.typeOf (.field base name)).isSome
  | .index base position =>
    Selects base ∧ Selects position ∧
      ((base = .ident Γ.args ∧ ∃ i, position = .int i) ∨ (Γ.typeOf (.index base position)).isSome)
  | .deref pointer => Selects pointer ∧ (Γ.typeOf (.deref pointer)).isSome
  | .new _ | .make _ _ | .composite _ => False

def AllSelect : List Expr → Prop
  | [] => True
  | e :: es => Selects e ∧ AllSelect es

end

/-- A value may be stored under a type. A slice or a record is made in the type itself, names and
all; a pointer is to what the type points to; and any other value is a scalar. -/
def Fits (value : Expr) (type : Shape) : Prop :=
  match value with
  | .new pointee => Γ.table.underlying? type = some (.optional pointee)
  | .make made length =>
    made = type ∧ (∃ elem, Γ.table.underlying? type = some (.sequence elem .dynamic)) ∧
      Γ.Selects length
  | .composite made => made = type ∧ ∃ fields, Γ.table.underlying? type = some (.record fields)
  | value =>
    Γ.Selects value ∧
      ∃ name, value.yields? = some name ∧ Γ.table.underlying? type = some (.named name)

mutual

/-- A statement whose declarations, assignments and selections are in order. The locals that count
and measure are apart from those that values are stored in. -/
def WellTyped : Stmt → Prop
  | .declare name type => Γ.storage.lookup name = some type
  | .define name value =>
    match Γ.storage.lookup name with
    | some type => Γ.Fits value type
    | none => Γ.Selects value
  | .assign target value =>
    Γ.Selects target ∧ ∃ type, Γ.typeOf target = some type ∧ Γ.Fits value type
  | .branch none condition body => Γ.Selects condition ∧ AllWellTyped body
  | .branch (some init) condition body => WellTyped init ∧ Γ.Selects condition ∧ AllWellTyped body
  | .loop counter bound body =>
    Γ.storage.lookup counter = none ∧ Γ.Selects bound ∧ AllWellTyped body

def AllWellTyped : List Stmt → Prop
  | [] => True
  | s :: rest => WellTyped s ∧ AllWellTyped rest

end

/-- A place of the given type. -/
structure Place (place : Expr) (type : Shape) : Prop where
  selects : Γ.Selects place
  typeOf_eq : Γ.typeOf place = some type

variable {Γ}

theorem allWellTyped_append {first second : List Stmt} :
    Γ.AllWellTyped (first ++ second) ↔ Γ.AllWellTyped first ∧ Γ.AllWellTyped second := by
  induction first with
  | nil => simp [AllWellTyped]
  | cons s rest ih => simp [AllWellTyped, ih, and_assoc]

theorem wellTyped_define {name : String} {value : Expr} {type : Shape}
    (h : Γ.storage.lookup name = some type) (hvalue : Γ.Fits value type) :
    Γ.WellTyped (.define name value) := by
  simpa only [WellTyped, h] using hvalue

/-- A local that no value is stored in may be defined by what a dynamic value answers. -/
theorem wellTyped_measure {name : String} {value : Expr} (h : Γ.storage.lookup name = none)
    (hvalue : Γ.Selects value) : Γ.WellTyped (.define name value) := by
  simpa only [WellTyped, h] using hvalue

/-! ## Sources -/

section

variable {source : Expr}

theorem selects_ask (h : Γ.Selects source) (accessor : Accessor) :
    Γ.Selects (source.ask accessor) :=
  ⟨h, trivial⟩

theorem selects_property (h : Γ.Selects source) (name : String) :
    Γ.Selects (source.property name) :=
  ⟨h, trivial, trivial⟩

theorem selects_element (h : Γ.Selects source) (counter : String) :
    Γ.Selects (source.element counter) :=
  ⟨h, trivial, trivial⟩

theorem selects_read (h : Γ.Selects source) (type : Scalar) : Γ.Selects (type.read source) := by
  unfold Scalar.read
  cases type.cast? with
  | none => exact selects_ask h type.access.accessor
  | some name => exact selects_ask h type.access.accessor

/-- A scalar may be stored wherever names lead to its own name. -/
theorem fits_read (h : Γ.Selects source) {scalar : Scalar} {type : Shape}
    (htype : Γ.table.underlying? type = some (.named scalar.name)) :
    Γ.Fits (scalar.read source) type := by
  have hSelects := selects_read h scalar
  have hYields := Expr.yields?_read scalar source
  generalize scalar.read source = value at hSelects hYields ⊢
  cases value with
  | new | make | composite => cases hYields
  | _ => exact ⟨hSelects, scalar.name, hYields, htype⟩

theorem wellTyped_whenPresent {options : Options} {body : List Stmt} (h : Γ.Selects source)
    (hkind : Γ.storage.lookup options.kindVar = none) (hbody : Γ.AllWellTyped body) :
    Γ.WellTyped (options.whenPresent source body) := by
  have hAbsent : Γ.Selects (.not (.binary .or (options.isKind .undefined)
      (options.isKind .null))) := by
    simp [Selects, Options.isKind]
  exact ⟨wellTyped_measure hkind (selects_ask h .type), hAbsent, hbody⟩

end

/-! ## Places -/

namespace Place

variable {place : Expr} {type : Shape}

theorem ident {name : String} (h : Γ.storage.lookup name = some type) :
    Γ.Place (.ident name) type :=
  ⟨trivial, h⟩

theorem deref {declared : Shape} {pointee : Layout} (h : Γ.Place place type)
    (hUnfolds : Γ.table.Unfolds type (.optional declared pointee)) :
    Γ.Place (.deref place) pointee.declared := by
  have hType : Γ.typeOf (.deref place) = some pointee.declared := by
    simp [typeOf, h.typeOf_eq, hUnfolds.underlying?_eq, Layout.exposed]
  exact ⟨⟨h.selects, by simp [hType]⟩, hType⟩

theorem index {declared : Shape} {elem : Layout} {extent : Extent} (h : Γ.Place place type)
    (hUnfolds : Γ.table.Unfolds type (.sequence declared elem extent)) (counter : String) :
    Γ.Place (.index place (.ident counter)) elem.declared := by
  have hType : Γ.typeOf (.index place (.ident counter)) = some elem.declared := by
    simp [typeOf, h.typeOf_eq, hUnfolds.underlying?_eq, Layout.exposed]
  exact ⟨⟨h.selects, trivial, .inr (by simp [hType])⟩, hType⟩

theorem field {declared : Shape} {fields : List (Field Layout)} (h : Γ.Place place type)
    (hUnfolds : Γ.table.Unfolds type (.record declared fields))
    (hdistinct : (fields.map Field.name).Nodup) {f : Field Layout} (hf : f ∈ fields) :
    Γ.Place (.field place f.name) f.type.declared := by
  have hType : Γ.typeOf (.field place f.name) = some f.type.declared := by
    have hFound := Field.find?_map_of_mem Layout.declared hdistinct hf
    simp [typeOf, h.typeOf_eq, hUnfolds.underlying?_eq, Layout.exposed, hFound]
  exact ⟨⟨h.selects, by simp [hType]⟩, hType⟩

end Place

end Context

namespace Layout

variable {Γ : Context} {options : Options}

private theorem fillFields_wellTyped {fields : List (Field Layout)} {source target : Expr}
    (ih : ∀ f ∈ fields, ∀ base source target names, Γ.Selects source →
      Γ.Place target f.type.declared →
      (∀ x ∈ Stmt.allLocals (f.type.fill options base source target names).1,
        Γ.storage.lookup x = none) →
      Γ.AllWellTyped (f.type.fill options base source target names).1)
    (hsource : Γ.Selects source)
    (hplaces : ∀ f ∈ fields, Γ.Place (.field target f.name) f.type.declared) (base : String)
    (names : Names)
    (hfree : ∀ x ∈ Stmt.allLocals (fillFields options base source target fields names).1,
      Γ.storage.lookup x = none) :
    Γ.AllWellTyped (fillFields options base source target fields names).1 := by
  induction fields generalizing names with
  | nil => trivial
  | cons f fields ihFields =>
    obtain ⟨name, type⟩ := f
    simp only [fillFields, Stmt.allLocals_append, List.mem_append] at hfree
    rw [fillFields, Context.allWellTyped_append]
    constructor
    · apply ih ⟨name, type⟩ (by simp) _ _ _ _ (Context.selects_property hsource name)
        (hplaces ⟨name, type⟩ (by simp))
      exact fun x hx => hfree x (.inl hx)
    · apply ihFields (fun f hf => ih f (by simp [hf])) (fun f hf => hplaces f (by simp [hf]))
      exact fun x hx => hfree x (.inr hx)

/-- Code that fills a place is in order at the type that the place has. -/
theorem fill_wellTyped {layout : Layout} (h : Γ.table.Unfolds layout.declared layout)
    (hdistinct : layout.EveryRecord List.Nodup) (hkind : Γ.storage.lookup options.kindVar = none)
    (base : String) {source target : Expr} (hsource : Γ.Selects source)
    (hplace : Γ.Place target layout.declared) (names : Names)
    (hfree : ∀ x ∈ Stmt.allLocals (layout.fill options base source target names).1,
      Γ.storage.lookup x = none) :
    Γ.AllWellTyped (layout.fill options base source target names).1 := by
  have hUnderlying := h.underlying?_eq
  induction layout using Layout.induction generalizing base source target names with
  | scalar declared type =>
    have hFits := Context.fits_read hsource hUnderlying
    exact ⟨⟨hplace.selects, _, hplace.typeOf_eq, hFits⟩, trivial⟩
  | optional declared pointee ih =>
    have hPointee := h.part pointee (by simp [parts])
    simp only [fill, Stmt.allLocals, Stmt.locals_whenPresent, Stmt.locals, List.nil_append,
      List.append_nil] at hfree
    have hInner := ih hPointee hdistinct (base ++ "Elt") hsource (hplace.deref h) names hfree
      hPointee.underlying?_eq
    have hNew : Γ.WellTyped (.assign target (.new pointee.declared)) :=
      ⟨hplace.selects, _, hplace.typeOf_eq, hUnderlying⟩
    exact ⟨Context.wellTyped_whenPresent hsource hkind ⟨hNew, hInner⟩, trivial⟩
  | sequence declared elem extent ih =>
    have hElem := h.part elem (by simp [parts])
    cases extent with
    | fixed length =>
      simp only [fill, Stmt.allLocals, Stmt.locals, List.append_nil, List.forall_mem_cons] at hfree
      have hInner := ih hElem hdistinct (base ++ "Elt") (Context.selects_element hsource _)
        (hplace.index h _) _ hfree.2 hElem.underlying?_eq
      exact ⟨⟨hfree.1, trivial, hInner⟩, trivial⟩
    | dynamic =>
      simp only [fill, Stmt.allLocals, Stmt.locals, List.append_nil, List.nil_append,
        List.cons_append, List.forall_mem_cons] at hfree
      obtain ⟨hLength, hCounter, hOthers⟩ := hfree
      have hInner := ih hElem hdistinct (base ++ "Elt") (Context.selects_element hsource _)
        (hplace.index h _) _ hOthers hElem.underlying?_eq
      have hMake : Γ.Fits (.make declared (.ident (names.claim (base ++ "Len")).1)) declared :=
        ⟨rfl, ⟨_, hUnderlying⟩, trivial⟩
      exact ⟨Context.wellTyped_measure hLength (Context.selects_ask hsource .length),
        ⟨hplace.selects, _, hplace.typeOf_eq, hMake⟩, ⟨hCounter, trivial, hInner⟩, trivial⟩
  | record declared fields ih =>
    refine fillFields_wellTyped ?_ hsource (fun f hf => hplace.field h hdistinct.1 hf) base names
      hfree
    intro f hf base source target names hsource hplace hfree
    have hField := h.part f.type (List.mem_map_of_mem hf)
    exact ih f hf hField (everyRecordOfFields_iff.mp hdistinct.2 f hf) base hsource hplace names
      hfree hField.underlying?_eq

/-- A value that is a local was declared for it. -/
theorem mem_locals_of_bind_value {layout : Layout} {base : String} {source : Expr} {names : Names}
    {x : String} (h : (layout.bind options base source names).1.value = .ident x) :
    x ∈ Stmt.allLocals (layout.bind options base source names).1.code := by
  cases layout with
  | scalar declared type => exact absurd h (Expr.read_ne_ident type source x)
  | optional | record =>
    cases h
    simp [bind, Stmt.allLocals, Stmt.locals]
  | sequence declared elem extent =>
    cases extent <;> cases h <;> simp [bind, Stmt.allLocals, Stmt.locals]

/-- A value is a local or a scalar that is read in place. -/
theorem bind_value_fits {layout : Layout} (h : Γ.table.Unfolds layout.declared layout)
    (base : String) {source : Expr} (hsource : Γ.Selects source) (names : Names) :
    (∃ x, (layout.bind options base source names).1.value = .ident x) ∨
      Γ.Fits (layout.bind options base source names).1.value layout.declared := by
  cases layout with
  | scalar declared type => exact .inr (Context.fits_read hsource h.underlying?_eq)
  | optional | record => exact .inl ⟨_, rfl⟩
  | sequence declared elem extent => cases extent <;> exact .inl ⟨_, rfl⟩

/-- Code that binds a value is in order if the local of the value, when there is one, has the type
of the layout, and no other local of the code is one that values are stored in. -/
theorem bind_wellTyped {layout : Layout} (h : Γ.table.Unfolds layout.declared layout)
    (hdistinct : layout.EveryRecord List.Nodup) (hkind : Γ.storage.lookup options.kindVar = none)
    (base : String) {source : Expr} (hsource : Γ.Selects source) (names : Names)
    (hstorage : ∀ x, (layout.bind options base source names).1.value = .ident x →
      Γ.storage.lookup x = some layout.declared)
    (hfree : ∀ x ∈ Stmt.allLocals (layout.bind options base source names).1.code,
      (layout.bind options base source names).1.value ≠ .ident x → Γ.storage.lookup x = none) :
    Γ.AllWellTyped (layout.bind options base source names).1.code := by
  have hNodup := (layout.bind_claims options base source names).nodup
  let place := names.claim base
  -- the place is declared first, and so none of the locals that fill it is the place
  have hFill (hvalue : (layout.bind options base source names).1.value = .ident place.1)
      (hlocals : Stmt.allLocals (layout.bind options base source names).1.code =
        place.1 :: Stmt.allLocals (layout.fill options place.1 source (.ident place.1) place.2).1) :
      Γ.AllWellTyped (layout.fill options place.1 source (.ident place.1) place.2).1 := by
    rw [hlocals] at hNodup hfree
    apply fill_wellTyped h hdistinct hkind place.1 hsource (.ident (hstorage place.1 hvalue))
    intro x hx
    apply hfree x (List.mem_cons_of_mem _ hx)
    rw [hvalue]
    intro hx'
    cases hx'
    exact (List.nodup_cons.mp hNodup).1 hx
  cases layout with
  | scalar declared type => trivial
  | optional declared pointee =>
    have hPlace := hstorage place.1 rfl
    exact ⟨hPlace, hFill rfl (by simp [bind, place, Stmt.allLocals, Stmt.locals])⟩
  | record declared fields =>
    have hPlace := hstorage place.1 rfl
    have hComposite : Γ.Fits (.composite declared) declared := ⟨rfl, _, h.underlying?_eq⟩
    exact ⟨Context.wellTyped_define hPlace hComposite,
      hFill rfl (by simp [bind, place, Stmt.allLocals, Stmt.locals])⟩
  | sequence declared elem extent =>
    cases extent with
    | fixed length =>
      have hPlace := hstorage place.1 rfl
      exact ⟨hPlace, hFill rfl (by simp [bind, place, Stmt.allLocals, Stmt.locals])⟩
    | dynamic =>
      have hPlace := hstorage place.1 rfl
      have hElem := h.part elem (by simp [parts])
      let length := place.2.claim (place.1 ++ "Len")
      let counter := length.2.claim (place.1 ++ "Idx")
      simp only [bind, Stmt.allLocals, Stmt.locals, List.append_nil, List.singleton_append,
        List.nodup_cons, List.mem_cons, not_or, ne_eq, Expr.ident.injEq] at hNodup hfree
      obtain ⟨⟨hLengthPlace, -⟩, ⟨hPlaceCounter, hPlaceInner⟩, -⟩ := hNodup
      have hLength : Γ.storage.lookup length.1 = none :=
        hfree length.1 (.inl rfl) fun h => hLengthPlace h.symm
      have hCounter : Γ.storage.lookup counter.1 = none :=
        hfree counter.1 (.inr (.inr (.inl rfl))) hPlaceCounter
      have hInner : Γ.AllWellTyped (elem.fill options (place.1 ++ "Elt") (source.element counter.1)
          (.index (.ident place.1) (.ident counter.1)) counter.2).1 := by
        apply fill_wellTyped hElem hdistinct hkind _ (Context.selects_element hsource counter.1)
          ((Context.Place.ident hPlace).index h counter.1)
        intro x hx
        apply hfree x (.inr (.inr (.inr hx)))
        intro hx'
        rw [← hx'] at hx
        exact hPlaceInner hx
      have hMake : Γ.Fits (.make declared (.ident length.1)) declared :=
        ⟨rfl, ⟨_, h.underlying?_eq⟩, trivial⟩
      exact ⟨Context.wellTyped_measure hLength (Context.selects_ask hsource .length),
        Context.wellTyped_define hPlace hMake, ⟨hCounter, trivial, hInner⟩, trivial⟩

end Layout

namespace Arguments

/-- The locals that arguments are stored in, each with the type of its parameter as written. -/
def storage (params : List Param) (arguments : Arguments) : List (String × Shape) :=
  (params.zip arguments.values).filterMap fun p => p.2.local?.map fun name => (name, p.1.shape)

section

variable {params : List Param} {arguments : Arguments}

theorem mem_storage {name : String} {type : Shape} :
    (name, type) ∈ arguments.storage params ↔
      ∃ param, (param, .ident name) ∈ params.zip arguments.values ∧ param.shape = type := by
  simp only [storage, List.mem_filterMap, Option.map_eq_some_iff, Expr.local?_eq_some_iff,
    Prod.mk.injEq]
  constructor
  · rintro ⟨⟨param, _⟩, hp, _, rfl, rfl, htype⟩
    exact ⟨param, hp, htype⟩
  · rintro ⟨param, hp, htype⟩
    exact ⟨(param, .ident name), hp, name, rfl, rfl, htype⟩

theorem map_fst_storage (hlength : arguments.values.length = params.length) :
    (arguments.storage params).map Prod.fst = arguments.values.filterMap Expr.local? := by
  have hValues : (params.zip arguments.values).map Prod.snd = arguments.values :=
    List.map_snd_zip hlength.le
  conv_rhs => rw [← hValues, List.filterMap_map]
  simp [storage, List.map_filterMap, Function.comp_def]

theorem lookup_storage_eq_none {name : String} (h : .ident name ∉ arguments.values) :
    (arguments.storage params).lookup name = none := by
  rw [List.lookup_eq_none_iff]
  intro p hp
  obtain ⟨param, hvalue, -⟩ := mem_storage.mp hp
  have hne : name ≠ p.1 := by
    intro hname
    rw [hname] at h
    exact h (List.of_mem_zip hvalue).2
  simpa using hne

/-- A local is stored in for one argument only. -/
theorem lookup_storage (hdistinct : ((arguments.storage params).map Prod.fst).Nodup) {i : Nat}
    {param : Param} {name : String} (hparam : params[i]? = some param)
    (hvalue : arguments.values[i]? = some (.ident name)) :
    (arguments.storage params).lookup name = some param.shape := by
  have hmem : (name, param.shape) ∈ arguments.storage params :=
    mem_storage.mpr ⟨param, List.mem_of_getElem? (List.getElem?_zip_eq_some.mpr ⟨hparam, hvalue⟩),
      rfl⟩
  obtain ⟨before, after, hstorage⟩ := List.append_of_mem hmem
  rw [hstorage, List.map_append, List.map_cons] at hdistinct
  refine List.lookup_eq_some_iff.mpr ⟨before, after, hstorage, ?_⟩
  intro p hp
  have hne : p.1 ≠ name :=
    (List.nodup_append.mp hdistinct).2.2 p.1 (List.mem_map_of_mem hp) name List.mem_cons_self
  simpa using hne.symm

end

variable {Γ : Context} {options : Options}

theorem length_values_emit (index : Nat) (layouts : List (Field Layout)) (names : Names) :
    (emit options index layouts names).values.length = layouts.length := by
  induction layouts generalizing index names with
  | nil => rfl
  | cons f layouts ih => simp [emit, ih]

/-- The arguments that are locals are among the locals of the code, one for one. -/
theorem locals_values_sublist (index : Nat) (layouts : List (Field Layout)) (names : Names) :
    ((emit options index layouts names).values.filterMap Expr.local?).Sublist
      (Stmt.allLocals (emit options index layouts names).code) := by
  induction layouts generalizing index names with
  | nil => exact List.nil_sublist _
  | cons f layouts ih =>
    obtain ⟨base, layout⟩ := f
    simp only [emit, Stmt.allLocals_append]
    generalize hFirst : layout.bind options base (.index (.ident options.args) (.int index))
      names = first
    cases hLocal : first.1.value.local? with
    | none =>
      rw [List.filterMap_cons_none hLocal]
      exact (ih _ _).trans (List.sublist_append_right _ _)
    | some name =>
      have hDeclared : name ∈ Stmt.allLocals first.1.code := by
        subst hFirst
        exact Layout.mem_locals_of_bind_value (Expr.local?_eq_some_iff.mp hLocal)
      rw [List.filterMap_cons_some hLocal]
      exact (List.singleton_sublist.mpr hDeclared).append (ih _ _)

theorem mem_locals_of_mem_values {index : Nat} {layouts : List (Field Layout)} {names : Names}
    {x : String} (h : .ident x ∈ (emit options index layouts names).values) :
    x ∈ Stmt.allLocals (emit options index layouts names).code :=
  (locals_values_sublist index layouts names).subset
    (List.mem_filterMap.mpr ⟨.ident x, h, rfl⟩)

theorem storage_sublist {params : List Param} {index : Nat} {layouts : List (Field Layout)}
    {names : Names} (hlength : layouts.length = params.length) :
    (((emit options index layouts names).storage params).map Prod.fst).Sublist
      (Stmt.allLocals (emit options index layouts names).code) := by
  rw [map_fst_storage (by rw [length_values_emit, hlength])]
  exact locals_values_sublist index layouts names

/-- No argument is stored in a local whose name was taken before. -/
theorem lookup_storage_of_used {params : List Param} {index : Nat} {layouts : List (Field Layout)}
    {names : Names} {name : String} (hused : name ∈ names.used) :
    ((emit options index layouts names).storage params).lookup name = none := by
  apply lookup_storage_eq_none
  intro hmem
  exact (emit_claims options index layouts names).fresh name (mem_locals_of_mem_values hmem) hused

theorem selects_argument (hargs : Γ.args = options.args) (index : Nat) :
    Γ.Selects (.index (.ident options.args) (.int index)) :=
  ⟨trivial, trivial, .inl ⟨hargs ▸ rfl, index, rfl⟩⟩

/-- Code that binds parameters is in order if the local of each argument, where there is one, has
the type of the layout, and no other local of the code is one that arguments are stored in. -/
theorem emit_wellTyped {index : Nat} {layouts : List (Field Layout)} {names : Names}
    (hUnfolds : ∀ f ∈ layouts, Γ.table.Unfolds f.type.declared f.type)
    (hdistinct : ∀ f ∈ layouts, f.type.EveryRecord List.Nodup)
    (hkind : Γ.storage.lookup options.kindVar = none) (hargs : Γ.args = options.args)
    (hstorage : ∀ (i : Nat) f x, layouts[i]? = some f →
      (emit options index layouts names).values[i]? = some (.ident x) →
      Γ.storage.lookup x = some f.type.declared)
    (hfree : ∀ x ∈ Stmt.allLocals (emit options index layouts names).code,
      .ident x ∉ (emit options index layouts names).values → Γ.storage.lookup x = none) :
    Γ.AllWellTyped (emit options index layouts names).code := by
  have hNodup := (emit_claims options index layouts names).nodup
  induction layouts generalizing index names with
  | nil => trivial
  | cons f layouts ih =>
    obtain ⟨base, layout⟩ := f
    have hSource := selects_argument hargs index
    simp only [emit, Stmt.allLocals_append, List.mem_cons, not_or] at hfree hstorage hNodup
    obtain ⟨-, hOthers, hApart⟩ := List.nodup_append.mp hNodup
    rw [emit, Context.allWellTyped_append]
    constructor
    · apply Layout.bind_wellTyped (hUnfolds ⟨base, layout⟩ (by simp))
        (hdistinct ⟨base, layout⟩ (by simp)) hkind base hSource names
      · intro x hx
        exact hstorage 0 ⟨base, layout⟩ x rfl (congrArg some hx)
      · intro x hx hvalue
        refine hfree x (List.mem_append_left _ hx) ⟨fun h => hvalue h.symm, fun h => ?_⟩
        exact hApart x hx x (mem_locals_of_mem_values h) rfl
    · apply ih (fun f hf => hUnfolds f (by simp [hf])) (fun f hf => hdistinct f (by simp [hf]))
        (fun i f x hf hx => hstorage (i + 1) f x hf hx) _ hOthers
      intro x hx hvalues
      refine hfree x (List.mem_append_right _ hx) ⟨fun h => ?_, hvalues⟩
      exact hApart x (Layout.mem_locals_of_bind_value h.symm) x hx rfl

theorem emit_value_fits {index : Nat} {layouts : List (Field Layout)} {names : Names}
    (hUnfolds : ∀ f ∈ layouts, Γ.table.Unfolds f.type.declared f.type)
    (hargs : Γ.args = options.args) {i : Nat} {f : Field Layout} (hf : layouts[i]? = some f) :
    ∃ value, (emit options index layouts names).values[i]? = some value ∧
      ((∃ x, value = .ident x) ∨ Γ.Fits value f.type.declared) := by
  induction layouts generalizing index names i with
  | nil => cases hf
  | cons g layouts ih =>
    obtain ⟨base, layout⟩ := g
    cases i with
    | zero =>
      cases hf
      have hSource := selects_argument hargs index
      exact ⟨_, rfl, Layout.bind_value_fits (hUnfolds ⟨base, layout⟩ (by simp)) base hSource names⟩
    | succ i => exact ih (fun f hf => hUnfolds f (by simp [hf])) hf

end Arguments

namespace AliasTable

variable {table : AliasTable}

section

variable {index : Nat} {params : List Param} {layouts : List (Field Layout)}

/-- A layout is declared with the type of its parameter as written. -/
theorem declared_layoutParams (h : table.layoutParams index params = .ok layouts) (i : Nat) :
    layouts[i]?.map (fun f => f.type.declared) = params[i]?.map Param.shape := by
  obtain ⟨hLength, hEach⟩ := layoutParams_ok h
  by_cases hi : i < layouts.length
  · have hParam := List.getElem?_eq_getElem (hLength ▸ hi)
    have hLayout := List.getElem?_eq_getElem hi
    have hUnfolds := (hEach i _ _ hLayout hParam).2
    rw [hLayout, hParam, Option.map_some, Option.map_some, hUnfolds.declared_eq]
  · rw [List.getElem?_eq_none (by omega), List.getElem?_eq_none (by omega)]
    rfl

theorem everyRecord_layoutParams {P : List String → Prop}
    (h : table.layoutParams index params = .ok layouts) (htable : table.EveryRecord P)
    (hparams : ∀ param ∈ params, param.shape.EveryRecord P) :
    ∀ f ∈ layouts, f.type.EveryRecord P := by
  intro f hf
  obtain ⟨param, hparam, i, -, hUnfolds⟩ := mem_layoutParams h f hf
  exact hUnfolds.everyRecord htable (hparams param hparam)

end

/-- The code for a parameter list is well typed, where the local that an argument is stored in has
the type of its parameter as written. The code declares each of these locals, and none twice. Each
argument is such a local, or a scalar that the type of its parameter leads to. -/
theorem resolveArguments_wellTyped {options : Options} {params : List Param}
    {arguments : Arguments} (h : table.resolveArguments options params = .ok arguments)
    (htable : table.EveryRecord List.Nodup)
    (hparams : ∀ param ∈ params, param.shape.EveryRecord List.Nodup) :
    let Γ : Context := ⟨table, options.args, arguments.storage params⟩
    (Γ.storage.map Prod.fst).Sublist (Stmt.allLocals arguments.code) ∧
    (Stmt.allLocals arguments.code).Nodup ∧
    (∀ (i : Nat) param, params[i]? = some param →
      ∃ value, arguments.values[i]? = some value ∧
        (Γ.Place value param.shape ∨ Γ.Fits value param.shape)) ∧
    Γ.AllWellTyped arguments.code := by
  intro Γ
  obtain ⟨layouts, hLayouts, rfl⟩ := resolveArguments_eq_ok_iff.mp h
  have hArgs : Γ.args = options.args := rfl
  have hUnfolds : ∀ f ∈ layouts, Γ.table.Unfolds f.type.declared f.type :=
    unfolds_layoutParams hLayouts
  have hDistinct := everyRecord_layoutParams hLayouts htable hparams
  have hNodup := (Arguments.emit_claims options 0 layouts (.reserved options)).nodup
  have hStorage : (Γ.storage.map Prod.fst).Sublist _ :=
    Arguments.storage_sublist (layoutParams_ok hLayouts).1
  have hStored := hStorage.nodup hNodup
  have hKind : Γ.storage.lookup options.kindVar = none :=
    Arguments.lookup_storage_of_used (by simp [Names.reserved])
  refine ⟨hStorage, hNodup, ?_, ?_⟩
  · intro i param hparam
    have hShape := declared_layoutParams hLayouts i
    rw [hparam, Option.map_some, Option.map_eq_some_iff] at hShape
    obtain ⟨f, hf, hShape⟩ := hShape
    obtain ⟨value, hvalue, hlocal | hFits⟩ := Arguments.emit_value_fits hUnfolds hArgs hf
    · obtain ⟨x, rfl⟩ := hlocal
      exact ⟨.ident x, hvalue, .inl (.ident (Arguments.lookup_storage hStored hparam hvalue))⟩
    · exact ⟨value, hvalue, .inr (hShape ▸ hFits)⟩
  · apply Arguments.emit_wellTyped hUnfolds hDistinct hKind hArgs
    · intro i f x hf hx
      have hShape := (declared_layoutParams hLayouts i).symm
      rw [hf, Option.map_some, Option.map_eq_some_iff] at hShape
      obtain ⟨param, hparam, hShape⟩ := hShape
      rw [← hShape]
      exact Arguments.lookup_storage hStored hparam hx
    · intro x hx hvalues
      exact Arguments.lookup_storage_eq_none hvalues

theorem resolveArguments_wellTyped_drawRows : ∃ arguments,
    rows.resolveArguments {} drawRows.params = .ok arguments ∧
    rows.EveryRecord List.Nodup ∧
    (∀ param ∈ drawRows.params, param.shape.EveryRecord List.Nodup) ∧
    arguments.storage drawRows.params = [("a", .named "Row"),
      ("aLen", .sequence (.named "int") .dynamic), ("arg2", .optional (.named "Row"))] ∧
    Context.AllWellTyped ⟨rows, "args", arguments.storage drawRows.params⟩ arguments.code := by
  have hTable : rows.EveryRecord List.Nodup := everyRecord_rows (by decide)
  obtain ⟨-, -, -, hCode⟩ :=
    resolveArguments_wellTyped resolveArguments_drawRows hTable everyRecord_drawRows
  exact ⟨_, resolveArguments_drawRows, hTable, everyRecord_drawRows, by cbv, hCode⟩

end AliasTable

end Unmarshal
