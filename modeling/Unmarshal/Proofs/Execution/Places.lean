import Unmarshal.Proofs.Execution.Filling
import Unmarshal.Proofs.Execution.Footprint

/-!
# Places that expressions stand for

A destination is a place that an expression stands for and that holds a zero value. Writing to it
changes no part of memory that is read on the way to it, so the expression keeps standing for it
until it is filled.
-/
namespace Unmarshal

variable {δ φ ω : Type}

namespace Value

/-- The values have parts under the same selectors: they are equal, or arrays of one length, or
records with the same names. -/
def SameParts : Value δ φ → Value δ φ → Prop
  | .array first, .array second => first.length = second.length
  | .record first, .record second => first.map Field.name = second.map Field.name
  | first, second => first = second

theorem SameParts.refl (value : Value δ φ) : value.SameParts value := by
  cases value <;> rfl

theorem map_name_setField (name : String) (value : Value δ φ) (fields : List (Field (Value δ φ))) :
    (setField name value fields).map Field.name = fields.map Field.name := by
  induction fields with
  | nil => rfl
  | cons f fields ih =>
    obtain ⟨other, own⟩ := f
    by_cases hname : other = name <;> simp [setField, hname, ih]

theorem sameParts_replace (selector : Selector) (value part : Value δ φ) :
    value.SameParts (value.replace selector part) := by
  cases selector <;> cases value <;>
    first
    | exact .refl _
    | simp [replace, SameParts, map_name_setField]

theorem sameParts_put {path : List Selector} (h : path ≠ []) (value part : Value δ φ) :
    value.SameParts (value.put path part) := by
  cases path with
  | nil => exact absurd rfl h
  | cons selector path =>
    rw [put]
    split
    · exact sameParts_replace _ _ _
    · exact .refl _

theorem fieldValue?_setField_ne {name other : String} (h : other ≠ name) (value : Value δ φ)
    (fields : List (Field (Value δ φ))) :
    fieldValue? other (setField name value fields) = fieldValue? other fields := by
  induction fields with
  | nil => rfl
  | cons f fields ih =>
    obtain ⟨own, old⟩ := f
    by_cases hname : own = name
    · simp [setField, fieldValue?, hname, h.symm]
    · simp [setField, fieldValue?, hname, ih]

theorem select_replace_ne {selector other : Selector} (h : other ≠ selector)
    (value part : Value δ φ) : (value.replace selector part).select other = value.select other := by
  cases selector with
  | elem position =>
    cases value with
    | array elems =>
      cases other with
      | elem i =>
        have hne : position ≠ i := fun heq => h (heq ▸ rfl)
        simp [replace, select, hne]
      | field name => rfl
    | _ => rfl
  | field name =>
    cases value with
    | record fields =>
      cases other with
      | elem i => rfl
      | field own =>
        have hne : own ≠ name := fun heq => h (heq ▸ rfl)
        exact fieldValue?_setField_ne hne part fields
    | _ => rfl

/-- Writing at the end of a path changes what is below it, and above it leaves the parts that there
are. -/
theorem get_put_cases {path way : List Selector} {value old : Value δ φ} (part : Value δ φ)
    (h : value.get way = some old) :
    path <+: way ∨ ∃ next, (value.put path part).get way = some next ∧ old.SameParts next := by
  induction path generalizing value way with
  | nil => exact .inl (List.nil_prefix)
  | cons selector path ih =>
    cases way with
    | nil =>
      right
      obtain rfl : value = old := by simpa [get] using h
      exact ⟨_, rfl, sameParts_put (by simp) value part⟩
    | cons step way =>
      cases hinner : value.select selector with
      | none =>
        right
        exact ⟨old, by rw [put, hinner]; exact h, .refl old⟩
      | some inner =>
        by_cases hstep : step = selector
        · subst hstep
          simp only [get, hinner, Option.bind_some] at h
          rcases ih h with hprefix | ⟨next, hnext, hsame⟩
          · exact .inl (List.cons_prefix_cons.mpr ⟨rfl, hprefix⟩)
          · right
            exact ⟨next, by simp [put, hinner, get, select_replace _ hinner, hnext], hsame⟩
        · right
          refine ⟨old, ?_, .refl old⟩
          rw [put, hinner, get, select_replace_ne hstep]
          exact h

/-- No pointer and no slice in the value refers to a cell. -/
def Barren (value : Value δ φ) : Prop :=
  ∀ way cell, value.get way ≠ some (.pointer (some cell)) ∧
    value.get way ≠ some (.slice (some cell))

/-- A value is barren if it refers to no cell itself and its parts are barren. -/
theorem barren_of_parts {value : Value δ φ} (hself : ∀ cell, value ≠ .pointer (some cell) ∧
      value ≠ .slice (some cell))
    (hparts : ∀ selector part, value.select selector = some part → part.Barren) :
    value.Barren := by
  intro way cell
  cases way with
  | nil =>
    simp only [get, ne_eq, Option.some.injEq]
    exact hself cell
  | cons selector way =>
    cases hselect : value.select selector with
    | none => simp [get, hselect]
    | some part =>
      simp only [get, hselect, Option.bind_some]
      exact hparts selector part hselect way cell

end Value

namespace Machine

variable {M : Machine δ φ ω}

private theorem exists_of_fieldValue?_zeros {fields : List (Field Layout)} {name : String}
    {value : Value δ φ} (h : Value.fieldValue? name (M.zeros fields) = some value) :
    ∃ f ∈ fields, value = M.zero f.type := by
  induction fields with
  | nil => cases h
  | cons f fields ih =>
    obtain ⟨other, type⟩ := f
    by_cases hname : other = name
    · simp only [zeros, Value.fieldValue?, hname, if_true, Option.some.injEq] at h
      exact ⟨⟨other, type⟩, by simp, h.symm⟩
    · simp only [zeros, Value.fieldValue?, hname, if_false] at h
      obtain ⟨f, hf, hvalue⟩ := ih h
      exact ⟨f, by simp [hf], hvalue⟩

/-- Behind the pointers and slices of a zero value there is nothing. -/
theorem zero_barren (layout : Layout) : (M.zero layout).Barren := by
  induction layout using Layout.induction with
  | scalar declared type =>
    apply Value.barren_of_parts
    · simp [zero]
    · intro selector part h
      cases selector <;> cases h
  | optional declared pointee ih =>
    apply Value.barren_of_parts
    · simp [zero]
    · intro selector part h
      cases selector <;> cases h
  | sequence declared elem extent ih =>
    cases extent with
    | dynamic =>
      apply Value.barren_of_parts
      · simp [zero]
      · intro selector part h
        cases selector <;> cases h
    | fixed length =>
      apply Value.barren_of_parts
      · simp [zero]
      · intro selector part h
        cases selector with
        | field name => cases h
        | elem position =>
          have hmem := List.mem_of_getElem? h
          rw [List.eq_of_mem_replicate hmem]
          exact ih
  | record declared fields ih =>
    apply Value.barren_of_parts
    · simp [zero]
    · intro selector part h
      cases selector with
      | elem position => cases h
      | field name =>
        obtain ⟨f, hf, rfl⟩ := exists_of_fieldValue?_zeros h
        exact ih f hf

end Machine

/-! ## Places around a place -/

/-- The second place is the first one or a part of it. -/
def Place.Covers (p q : Place) : Prop := p.cell = q.cell ∧ p.path <+: q.path

theorem Place.Covers.sub {p q : Place} (h : p.Covers q) (selector : Selector) :
    p.Covers (q.sub selector) ∧ q.sub selector ≠ p := by
  refine ⟨⟨h.1, h.2.trans (List.prefix_append _ _)⟩, ?_⟩
  rintro rfl
  have hle := h.2.length_le
  simp only [Place.sub, List.length_append, List.length_singleton] at hle
  omega

namespace Heap

variable {before after : Heap δ φ} {p q : Place} {value old : Value δ φ}

theorem Writes.read_cases (h : Writes p value before after) (hq : before.read q = some old) :
    p.Covers q ∨ ∃ next, after.read q = some next ∧ old.SameParts next := by
  have hlt := cell_lt_of_read hq
  by_cases hcell : p.cell = q.cell
  · rw [read] at hq
    cases hwhole : before[q.cell]? with
    | none => rw [hwhole] at hq; cases hq
    | some whole =>
      rw [hwhole, Option.bind_some] at hq
      rcases Value.get_put_cases value hq with hprefix | ⟨next, hnext, hsame⟩
      · exact .inl ⟨hcell, hprefix⟩
      · right
        refine ⟨next, ?_, hsame⟩
        rw [read, h.cells _ hlt, ← hcell, getElem?_write_same, hcell, hwhole]
        exact hnext
  · right
    refine ⟨old, ?_, .refl old⟩
    rw [read_congr (h.getElem?_ne hlt hcell), hq]

/-- No part of a place with a barren value refers to a cell. -/
theorem not_covers_of_refers {barren : Value δ φ} (hp : before.read p = some barren)
    (hbarren : barren.Barren) {cell : Nat} (hq : before.read q = some (.pointer (some cell)) ∨
      before.read q = some (.slice (some cell))) : ¬ p.Covers q := by
  rintro ⟨hcell, rest, hpath⟩
  have hpart : before.read q = barren.get rest := by
    rw [read] at hp ⊢
    rw [← hcell, ← hpath]
    cases hwhole : before[p.cell]? with
    | none => rw [hwhole] at hp; cases hp
    | some whole =>
      rw [hwhole, Option.bind_some] at hp
      rw [Option.bind_some, Value.get_append, hp, Option.bind_some]
  rw [hpart] at hq
  rcases hq with hq | hq
  · exact (hbarren rest cell).1 hq
  · exact (hbarren rest cell).2 hq

end Heap

/-! ## Place expressions -/

/-- The expression stands for a place: an identifier, extended by dereferences, fields and indices,
which are numbers or other identifiers. -/
inductive Expr.PlaceFrom (root : String) : Expr → Prop
  | root : PlaceFrom root (.ident root)
  | deref {e : Expr} : PlaceFrom root e → PlaceFrom root (.deref e)
  | field {e : Expr} (name : String) : PlaceFrom root e → PlaceFrom root (.field e name)
  | element {e : Expr} (i : Nat) : PlaceFrom root e → PlaceFrom root (.index e (.int i))
  | index {e : Expr} {name : String} : PlaceFrom root e → name ≠ root →
      PlaceFrom root (.index e (.ident name))

namespace Machine

variable {M : Machine δ φ ω} {options : Options} {names : Names} {p q r : Place} {root : String}
  {zero : Value δ φ} {σ τ υ : State δ φ ω}

private theorem eval_ident_eq_ok_iff {name : String} {value : Value δ φ} :
    M.eval (.ident name) σ = .ok (value, υ) ↔
      ∃ cell, σ.lookup name = some cell ∧ σ.heap[cell]? = some value ∧ υ = σ := by
  constructor
  · intro h
    rw [eval] at h
    cases hcell : σ.lookup name with
    | none => rw [hcell] at h; cases h
    | some cell =>
      rw [hcell] at h
      obtain ⟨loaded, hload, h⟩ := bind_eq_ok_iff.mp h
      cases h
      unfold State.load at hload
      split at hload
      · next found hread =>
        cases hload
        exact ⟨cell, rfl, by rwa [Heap.read_cell] at hread, rfl⟩
      · cases hload
  · rintro ⟨cell, hcell, hvalue, rfl⟩
    exact eval_ident hcell hvalue

section

variable (hzero : σ.heap.read p = some zero) (hbarren : zero.Barren) {value : Value δ φ}
  (hwrites : Heap.Writes p value σ.heap τ.heap)

include hzero hbarren hwrites

/-- A reference that is read on the way to a destination is not read from a part of it. -/
private theorem read_refers {cell : Nat} {reference : Value δ φ}
    (hreference : reference = .pointer (some cell) ∨ reference = .slice (some cell))
    (hread : σ.heap.read q = some reference) :
    ¬ p.Covers q ∧ τ.heap.read q = some reference := by
  have hapart : ¬ p.Covers q := by
    rcases hreference with rfl | rfl
    · exact Heap.not_covers_of_refers hzero hbarren (.inl hread)
    · exact Heap.not_covers_of_refers hzero hbarren (.inr hread)
  refine ⟨hapart, ?_⟩
  obtain ⟨next, hnext, hsame⟩ := (hwrites.read_cases hread).resolve_left hapart
  rcases hreference with rfl | rfl <;> exact hsame ▸ hnext

private theorem pointee_of_writes (h : σ.pointee q = .ok r) :
    ¬ p.Covers q ∧ τ.pointee q = .ok r := by
  obtain ⟨cell, hread, hr⟩ := State.pointee_eq_ok_iff.mp h
  obtain ⟨hapart, hread⟩ := read_refers hzero hbarren hwrites (.inl rfl) hread
  exact ⟨hapart, State.pointee_eq_ok_iff.mpr ⟨cell, hread, hr⟩⟩

omit hzero hbarren in
private theorem member_of_writes {name : String} (h : σ.member q name = .ok r) :
    (p.Covers q → p.Covers r ∧ r ≠ p) ∧ (τ.member q name = .ok r ∨ p.Covers r ∧ r ≠ p) := by
  obtain ⟨fields, hread, hname, rfl⟩ := State.member_eq_ok_iff.mp h
  refine ⟨fun hcovers => hcovers.sub _, ?_⟩
  rcases hwrites.read_cases hread with hcovers | ⟨next, hnext, hsame⟩
  · exact .inr (hcovers.sub _)
  · left
    cases next with
    | record others =>
      have hnames : fields.map Field.name = others.map Field.name := hsame
      exact State.member_eq_ok_iff.mpr ⟨others, hnext, hnames ▸ hname, rfl⟩
    | _ => cases hsame

private theorem element_of_writes {position : Value δ φ} (h : σ.element q position = .ok r) :
    (p.Covers q → p.Covers r ∧ r ≠ p) ∧
      (τ.element q position = .ok r ∨ p.Covers r ∧ r ≠ p) := by
  obtain ⟨i, elems, array, hposition, harray, hread, hi, rfl⟩ := State.element_eq_ok_iff.mp h
  have hrefers {cell : Nat} (hslice : σ.heap.read q = some (.slice (some cell))) :=
    read_refers hzero hbarren hwrites (.inr rfl) hslice
  refine ⟨?_, ?_⟩
  · intro hcovers
    rcases harray with rfl | ⟨cell, hslice, -⟩
    · exact hcovers.sub _
    · exact absurd hcovers (hrefers hslice).1
  · rcases hwrites.read_cases hread with hcovers | ⟨next, hnext, hsame⟩
    · exact .inr (hcovers.sub _)
    · left
      cases next with
      | array others =>
        have hlength : elems.length = others.length := hsame
        refine State.element_eq_ok_iff.mpr
          ⟨i, others, array, hposition, ?_, hnext, hlength ▸ hi, rfl⟩
        rcases harray with rfl | ⟨cell, hslice, rfl⟩
        · exact .inl rfl
        · exact .inr ⟨cell, (hrefers hslice).2, rfl⟩
      | _ => cases hsame

private theorem index_of_writes {base position : Expr} {i : Value δ φ}
    (hbase : M.place base τ = .ok (q, τ) ∨ p.Covers q ∧ q ≠ p)
    (hposition : M.eval position τ = .ok (i, τ)) (helement : σ.element q i = .ok r) :
    M.place (.index base position) τ = .ok (r, τ) ∨ p.Covers r ∧ r ≠ p := by
  obtain ⟨hinside, helement⟩ := element_of_writes hzero hbarren hwrites helement
  rcases hbase with hbase | hcovers
  · exact helement.imp_left fun helement => place_index hbase hposition helement
  · exact .inr (hinside hcovers.1)

end

/-- Where the zero value of a destination is replaced, its expression and the expressions that it is
built from stand for the places that they stood for, or for parts of the destination. -/
theorem place_of_extends (hzero : σ.heap.read p = some zero) (hbarren : zero.Barren)
    (hτ : σ.Extends options names p τ) {e : Expr} (hform : e.PlaceFrom root)
    (hnames : ∀ x ∈ e.idents, x ∈ names.used ∧ x ≠ options.kindVar)
    (hindex : ∀ x ∈ e.idents, x ≠ root → ∀ (cell : Nat) (i : Int), σ.lookup x = some cell →
      σ.heap[cell]? = some (.atom (.int i)) → cell ≠ p.cell)
    (h : M.place e σ = .ok (q, υ)) :
    υ = σ ∧ (M.place e τ = .ok (q, τ) ∨ p.Covers q ∧ q ≠ p) := by
  obtain ⟨value, hwrites⟩ := hτ.writes
  have hlookup : ∀ x ∈ e.idents, τ.lookup x = σ.lookup x :=
    fun x hx => hτ.lookup_eq x (hnames x hx).1 (hnames x hx).2
  induction hform generalizing q υ with
  | root =>
    have hroot : τ.lookup root = σ.lookup root := hlookup root (by simp [Expr.idents])
    rw [place] at h ⊢
    rw [hroot]
    cases hcell : σ.lookup root with
    | none => rw [hcell] at h; cases h
    | some cell =>
      rw [hcell] at h
      cases h
      exact ⟨rfl, .inl rfl⟩
  | deref hbase ih =>
    rw [place] at h
    obtain ⟨⟨r, σ'⟩, hr, h⟩ := bind_eq_ok_iff.mp h
    obtain ⟨_, hpointee, h⟩ := bind_eq_ok_iff.mp h
    cases h
    obtain ⟨rfl, hbase⟩ := ih hnames hindex hr hlookup
    refine ⟨rfl, .inl ?_⟩
    obtain ⟨hapart, hpointee⟩ := pointee_of_writes hzero hbarren hwrites hpointee
    have hbase := hbase.resolve_right fun hcovers => hapart hcovers.1
    rw [place]
    exact bind_eq_ok_iff.mpr ⟨_, hbase, bind_eq_ok_iff.mpr ⟨_, hpointee, rfl⟩⟩
  | field name hbase ih =>
    rw [place] at h
    obtain ⟨⟨r, σ'⟩, hr, h⟩ := bind_eq_ok_iff.mp h
    obtain ⟨_, hmember, h⟩ := bind_eq_ok_iff.mp h
    cases h
    obtain ⟨rfl, hbase⟩ := ih hnames hindex hr hlookup
    refine ⟨rfl, ?_⟩
    obtain ⟨hinside, hmember⟩ := member_of_writes hwrites hmember
    rcases hbase with hbase | hcovers
    · refine hmember.imp_left fun hmember => ?_
      rw [place]
      exact bind_eq_ok_iff.mpr ⟨_, hbase, bind_eq_ok_iff.mpr ⟨_, hmember, rfl⟩⟩
    · exact .inr (hinside hcovers.1)
  | element i hbase ih =>
    rw [place] at h
    obtain ⟨⟨r, σ'⟩, hr, h⟩ := bind_eq_ok_iff.mp h
    obtain ⟨⟨position, σ''⟩, hposition, h⟩ := bind_eq_ok_iff.mp h
    obtain ⟨_, helement, h⟩ := bind_eq_ok_iff.mp h
    cases h
    rw [eval] at hposition
    cases hposition
    obtain ⟨rfl, hbase⟩ := ih (fun x hx => hnames x (by simp [Expr.idents, hx]))
      (fun x hx => hindex x (by simp [Expr.idents, hx])) hr
      (fun x hx => hlookup x (by simp [Expr.idents, hx]))
    exact ⟨rfl, index_of_writes hzero hbarren hwrites hbase (by rw [eval]) helement⟩
  | @index base name hbase hne ih =>
    rw [place] at h
    obtain ⟨⟨r, σ'⟩, hr, h⟩ := bind_eq_ok_iff.mp h
    obtain ⟨⟨position, σ''⟩, hposition, h⟩ := bind_eq_ok_iff.mp h
    obtain ⟨_, helement, h⟩ := bind_eq_ok_iff.mp h
    cases h
    obtain ⟨rfl, hbase⟩ := ih (fun x hx => hnames x (by simp [Expr.idents, hx]))
      (fun x hx => hindex x (by simp [Expr.idents, hx])) hr
      (fun x hx => hlookup x (by simp [Expr.idents, hx]))
    have hmem : name ∈ (Expr.index base (.ident name)).idents := by simp [Expr.idents]
    obtain ⟨cell, hcell, hvalue, rfl⟩ := eval_ident_eq_ok_iff.mp hposition
    obtain ⟨i, -, -, rfl, -⟩ := State.element_eq_ok_iff.mp helement
    have hkept : τ.heap[cell]? = some (.atom (.int i)) := by
      rw [hwrites.getElem?_ne (List.getElem?_eq_some_iff.mp hvalue).1
        (hindex name hmem hne cell i hcell hvalue).symm]
      exact hvalue
    exact ⟨rfl, index_of_writes hzero hbarren hwrites hbase
      (eval_ident ((hlookup name hmem).trans hcell) hkept) helement⟩

/-- A destination is a place for a layout: its expression keeps standing for it. No index of it is
kept in the destination itself, or else this is not a number. -/
theorem targets_of_place (hzero : σ.heap.read p = some zero) (hbarren : zero.Barren) {e : Expr}
    (hform : e.PlaceFrom root) (hnames : ∀ x ∈ e.idents, x ∈ names.used ∧ x ≠ options.kindVar)
    (hindex : ∀ x ∈ e.idents, x ≠ root → ∀ (cell : Nat) (i : Int), σ.lookup x = some cell →
      σ.heap[cell]? = some (.atom (.int i)) → cell ≠ p.cell)
    (h : M.place e σ = .ok (p, σ)) : M.Targets options names p p e σ := by
  intro τ hτ
  obtain ⟨-, hplace⟩ := place_of_extends hzero hbarren hτ hform hnames hindex h
  exact hplace.resolve_right fun hpart => hpart.2 rfl

/-- A cell that holds a number has no other part. -/
theorem eq_int_of_read {cell : Nat} {i : Int} (hcell : σ.heap[cell]? = some (.atom (.int i)))
    (hp : p.cell = cell) {value : Value δ φ} (hread : σ.heap.read p = some value) :
    value = .atom (.int i) := by
  rw [Heap.read, hp, hcell, Option.bind_some] at hread
  cases hpath : p.path with
  | nil =>
    rw [hpath] at hread
    cases hread
    rfl
  | cons selector path =>
    rw [hpath] at hread
    cases selector <;> cases hread

end Machine

end Unmarshal
