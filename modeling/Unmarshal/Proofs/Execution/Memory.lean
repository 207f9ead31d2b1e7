import Unmarshal.Code.Basic
import Unmarshal.Scalar

/-!
# Memory

The values of a running body and the cells that hold them. Arrays and records are values, so a
place is a cell with the way to a part of what it holds; pointers and slices refer to cells.
Writing at a place changes the part at the end of its way and nothing beside it.
-/
namespace Unmarshal

/-- A value of a built-in scalar type. -/
inductive Atom (φ : Type) where
  | bool (value : Bool)
  | text (value : String)
  | int (value : Int)
  | float (value : φ)

def Atom.access {φ : Type} : Atom φ → ScalarAccess
  | .bool _ => .bool
  | .text _ => .string
  | .int _ => .int
  | .float _ => .float

/-- The kind that a dynamic value reports. -/
inductive Kind where
  | absent (kind : AbsentKind)
  | present (tag : Nat)
deriving DecidableEq, Repr

/-- Whether a dynamic value of a kind stands for a value. -/
def Kind.isPresent : Kind → Bool
  | .absent _ => false
  | .present _ => true

/-- A value that a cell may hold: `δ` are the dynamic values, `φ` the floating-point numbers. A
pointer or slice without a cell is nil. -/
inductive Value (δ φ : Type) where
  | atom (value : Atom φ)
  | kind (value : Kind)
  | dynamic (value : δ)
  | pointer (cell : Option Nat)
  | slice (cell : Option Nat)
  | array (elems : List (Value δ φ))
  | record (fields : List (Field (Value δ φ)))

/-- One step into an array or a record. -/
inductive Selector where
  | elem (position : Nat)
  | field (name : String)
deriving DecidableEq, Repr

/-- A part of what a cell holds. -/
structure Place where
  cell : Nat
  path : List Selector
deriving DecidableEq, Repr

def Place.sub (place : Place) (selector : Selector) : Place :=
  ⟨place.cell, place.path ++ [selector]⟩

namespace Value

variable {δ φ : Type}

/-- The value of the first field with a name. -/
def fieldValue? (name : String) : List (Field (Value δ φ)) → Option (Value δ φ)
  | [] => none
  | ⟨other, value⟩ :: fields => if other = name then some value else fieldValue? name fields

/-- Gives the first field with a name another value. -/
def setField (name : String) (value : Value δ φ) :
    List (Field (Value δ φ)) → List (Field (Value δ φ))
  | [] => []
  | ⟨other, old⟩ :: fields =>
    if other = name then ⟨other, value⟩ :: fields else ⟨other, old⟩ :: setField name value fields

def select : Selector → Value δ φ → Option (Value δ φ)
  | .elem position, .array elems => elems[position]?
  | .field name, .record fields => fieldValue? name fields
  | _, _ => none

/-- The value with another part under a selector. -/
def replace : Selector → Value δ φ → Value δ φ → Value δ φ
  | .elem position, .array elems, part => .array (elems.set position part)
  | .field name, .record fields, part => .record (setField name part fields)
  | _, value, _ => value

def get : List Selector → Value δ φ → Option (Value δ φ)
  | [], value => some value
  | selector :: path, value => (value.select selector).bind (get path)

/-- The value with another part at the end of a path, if there is one. -/
def put : List Selector → Value δ φ → Value δ φ → Value δ φ
  | [], _, part => part
  | selector :: path, value, part =>
    match value.select selector with
    | some inner => value.replace selector (put path inner part)
    | none => value

theorem fieldValue?_setField {name : String} {value old : Value δ φ}
    {fields : List (Field (Value δ φ))} (h : fieldValue? name fields = some old) :
    fieldValue? name (setField name value fields) = some value := by
  induction fields with
  | nil => cases h
  | cons f fields ih =>
    obtain ⟨other, own⟩ := f
    by_cases hname : other = name
    · simp [setField, fieldValue?, hname]
    · simp only [fieldValue?, hname, if_false] at h
      simp [setField, fieldValue?, hname, ih h]

theorem setField_setField (name : String) (first second : Value δ φ)
    (fields : List (Field (Value δ φ))) :
    setField name second (setField name first fields) = setField name second fields := by
  induction fields with
  | nil => rfl
  | cons f fields ih =>
    obtain ⟨other, own⟩ := f
    by_cases hname : other = name <;> simp [setField, hname, ih]

theorem setField_same {name : String} {value : Value δ φ} {fields : List (Field (Value δ φ))}
    (h : fieldValue? name fields = some value) : setField name value fields = fields := by
  induction fields with
  | nil => rfl
  | cons f fields ih =>
    obtain ⟨other, own⟩ := f
    by_cases hname : other = name
    · simp only [fieldValue?, hname, if_true, Option.some.injEq] at h
      simp [setField, hname, h]
    · simp only [fieldValue?, hname, if_false] at h
      simp [setField, hname, ih h]

theorem fieldValue?_append {name : String} {done : List (Field (Value δ φ))}
    (h : name ∉ done.map Field.name) (value : Value δ φ) (rest : List (Field (Value δ φ))) :
    fieldValue? name (done ++ ⟨name, value⟩ :: rest) = some value := by
  induction done with
  | nil => simp [fieldValue?]
  | cons f done ih =>
    obtain ⟨other, own⟩ := f
    simp only [List.map_cons, List.mem_cons, not_or] at h
    simp [fieldValue?, Ne.symm h.1, ih h.2]

theorem setField_append {name : String} {done : List (Field (Value δ φ))}
    (h : name ∉ done.map Field.name) (value old : Value δ φ) (rest : List (Field (Value δ φ))) :
    setField name value (done ++ ⟨name, old⟩ :: rest) = done ++ ⟨name, value⟩ :: rest := by
  induction done with
  | nil => simp [setField]
  | cons f done ih =>
    obtain ⟨other, own⟩ := f
    simp only [List.map_cons, List.mem_cons, not_or] at h
    simp [setField, Ne.symm h.1, ih h.2]

theorem select_replace {selector : Selector} {value old : Value δ φ} (part : Value δ φ)
    (h : value.select selector = some old) :
    (value.replace selector part).select selector = some part := by
  cases selector <;> cases value <;> simp only [select, reduceCtorEq] at h
  · next position elems =>
    have hlt := (List.getElem?_eq_some_iff.mp h).1
    simp [replace, select, hlt]
  · exact fieldValue?_setField h

theorem replace_replace (selector : Selector) (value first second : Value δ φ) :
    (value.replace selector first).replace selector second = value.replace selector second := by
  cases selector <;> cases value <;> simp [replace, setField_setField]

theorem replace_same {selector : Selector} {value part : Value δ φ}
    (h : value.select selector = some part) : value.replace selector part = value := by
  cases selector <;> cases value <;> simp only [select, reduceCtorEq] at h
  · next position elems =>
    obtain ⟨hlt, rfl⟩ := List.getElem?_eq_some_iff.mp h
    simp [replace]
  · simp [replace, setField_same h]

theorem get_append (path rest : List Selector) (value : Value δ φ) :
    value.get (path ++ rest) = (value.get path).bind (get rest) := by
  induction path generalizing value with
  | nil => rfl
  | cons selector path ih =>
    cases h : value.select selector <;> simp [get, h, ih]

theorem get_put {path : List Selector} {value old : Value δ φ} (part : Value δ φ)
    (h : value.get path = some old) : (value.put path part).get path = some part := by
  induction path generalizing value with
  | nil => rfl
  | cons selector path ih =>
    cases hs : value.select selector with
    | none => simp [get, hs] at h
    | some inner =>
      simp only [get, hs, Option.bind_some] at h
      simp only [put, hs, get, select_replace _ hs, Option.bind_some, ih h]

theorem put_put (path : List Selector) (value first second : Value δ φ) :
    (value.put path first).put path second = value.put path second := by
  induction path generalizing value with
  | nil => rfl
  | cons selector path ih =>
    cases hs : value.select selector with
    | none => simp [put, hs]
    | some inner => simp only [put, hs, select_replace _ hs, replace_replace, ih]

theorem put_same {path : List Selector} {value part : Value δ φ} (h : value.get path = some part) :
    value.put path part = value := by
  induction path generalizing value with
  | nil => simpa [get, put] using h.symm
  | cons selector path ih =>
    cases hs : value.select selector with
    | none => simp [put, hs]
    | some inner =>
      simp only [get, hs, Option.bind_some] at h
      simp only [put, hs, ih h, replace_same hs]

theorem put_append {path : List Selector} {value old : Value δ φ} (rest : List Selector)
    (part : Value δ φ) (h : value.get path = some old) :
    value.put (path ++ rest) part = value.put path (old.put rest part) := by
  induction path generalizing value with
  | nil =>
    simp only [get, Option.some.injEq] at h
    simp [put, h]
  | cons selector path ih =>
    cases hs : value.select selector with
    | none => simp [get, hs] at h
    | some inner =>
      simp only [get, hs, Option.bind_some] at h
      simp only [List.cons_append, put, hs, ih h]

/-- Whatever is written below a place, only the place has changed. -/
theorem exists_put_append (path rest : List Selector) (value part : Value δ φ) :
    ∃ whole, value.put (path ++ rest) part = value.put path whole := by
  induction path generalizing value with
  | nil => exact ⟨_, rfl⟩
  | cons selector path ih =>
    cases hs : value.select selector with
    | none => exact ⟨part, by simp [put, hs]⟩
    | some inner =>
      obtain ⟨whole, hw⟩ := ih inner
      exact ⟨whole, by simp [put, hs, hw]⟩

end Value

/-- The cells of memory, in the order in which they were allocated. -/
abbrev Heap (δ φ : Type) := List (Value δ φ)

namespace Heap

variable {δ φ : Type}

def read (heap : Heap δ φ) (place : Place) : Option (Value δ φ) :=
  heap[place.cell]?.bind (Value.get place.path)

def write (heap : Heap δ φ) (place : Place) (value : Value δ φ) : Heap δ φ :=
  heap.modify place.cell fun whole => whole.put place.path value

/-- One heap has become the other by writing a value at a place and by allocating cells. -/
structure Writes (place : Place) (value : Value δ φ) (before after : Heap δ φ) : Prop where
  length_le : before.length ≤ after.length
  cells : ∀ c < before.length, after[c]? = (before.write place value)[c]?

@[simp] theorem length_write (heap : Heap δ φ) (place : Place) (value : Value δ φ) :
    (heap.write place value).length = heap.length :=
  List.length_modify _ _ _

theorem read_cell (heap : Heap δ φ) (cell : Nat) : heap.read ⟨cell, []⟩ = heap[cell]? := by
  cases h : heap[cell]? <;> simp [read, h, Value.get]

theorem read_sub (heap : Heap δ φ) (place : Place) (selector : Selector) :
    heap.read (place.sub selector) = (heap.read place).bind (Value.select selector) := by
  simp only [read, Place.sub]
  cases heap[place.cell]? with
  | none => rfl
  | some whole =>
    simp only [Option.bind_some, Value.get_append]
    congr 1
    funext value
    cases h : value.select selector <;> simp [Value.get, h]

theorem cell_lt_of_read {heap : Heap δ φ} {place : Place} {value : Value δ φ}
    (h : heap.read place = some value) : place.cell < heap.length := by
  refine Nat.lt_of_not_le fun hge => ?_
  rw [read, List.getElem?_eq_none hge] at h
  cases h

theorem getElem?_write_same (heap : Heap δ φ) (place : Place) (value : Value δ φ) :
    (heap.write place value)[place.cell]? =
      heap[place.cell]?.map fun whole => whole.put place.path value := by
  simp [write]

theorem getElem?_write_ne {heap : Heap δ φ} {place : Place} {cell : Nat} (value : Value δ φ)
    (h : place.cell ≠ cell) : (heap.write place value)[cell]? = heap[cell]? := by
  simp [write, h]

theorem read_write {heap : Heap δ φ} {place : Place} {old : Value δ φ} (value : Value δ φ)
    (h : heap.read place = some old) : (heap.write place value).read place = some value := by
  rw [read] at h ⊢
  rw [getElem?_write_same]
  cases hc : heap[place.cell]? with
  | none => rw [hc] at h; cases h
  | some whole =>
    rw [hc] at h
    exact Value.get_put value h

theorem write_same {heap : Heap δ φ} {place : Place} {value : Value δ φ}
    (h : heap.read place = some value) : heap.write place value = heap := by
  apply List.ext_getElem?
  intro c
  by_cases hc : place.cell = c
  · subst hc
    rw [getElem?_write_same]
    rw [read] at h
    cases hw : heap[place.cell]? with
    | none => rfl
    | some whole =>
      rw [hw] at h
      have hsame : whole.put place.path value = whole := Value.put_same h
      simp [hsame]
  · rw [getElem?_write_ne _ hc]

theorem read_congr {first second : Heap δ φ} {place : Place}
    (h : first[place.cell]? = second[place.cell]?) : first.read place = second.read place := by
  rw [read, read, h]

namespace Writes

variable {place : Place} {value old : Value δ φ} {before middle after : Heap δ φ}

theorem write (heap : Heap δ φ) (place : Place) (value : Value δ φ) :
    Writes place value heap (heap.write place value) :=
  ⟨by simp, fun _ _ => rfl⟩

theorem refl (h : before.read place = some value) : Writes place value before before :=
  ⟨Nat.le_refl _, fun c _ => by rw [write_same h]⟩

theorem allocate (h : Writes place value before after) (fresh : Value δ φ) :
    Writes place value before (after ++ [fresh]) := by
  refine ⟨?_, fun c hc => ?_⟩
  · have hle := h.length_le
    simp only [List.length_append]
    omega
  · rw [List.getElem?_append_left (Nat.lt_of_lt_of_le hc h.length_le), h.cells c hc]

theorem read_eq (h : Writes place value before after) (hb : before.read place = some old) :
    after.read place = some value := by
  rw [read_congr (h.cells _ (cell_lt_of_read hb)), read_write value hb]

theorem getElem?_ne (h : Writes place value before after) {cell : Nat}
    (hlt : cell < before.length) (hne : place.cell ≠ cell) : after[cell]? = before[cell]? := by
  rw [h.cells cell hlt, getElem?_write_ne _ hne]

theorem again (h : Writes place value before middle) {next : Value δ φ}
    (k : Writes place next middle after) : Writes place next before after := by
  refine ⟨Nat.le_trans h.length_le k.length_le, fun c hc => ?_⟩
  rw [k.cells c (by have := h.length_le; omega)]
  by_cases hcell : place.cell = c
  · subst hcell
    rw [getElem?_write_same, getElem?_write_same, h.cells _ hc, getElem?_write_same]
    simp [Option.map_map, Function.comp_def, Value.put_put]
  · rw [getElem?_write_ne _ hcell, getElem?_write_ne _ hcell, h.getElem?_ne hc hcell]

theorem part (h : Writes place value before middle) (hb : before.read place = some old)
    {selector : Selector} {inner next : Value δ φ} (hs : value.select selector = some inner)
    (k : Writes (place.sub selector) next middle after) :
    Writes place (value.replace selector next) before after := by
  have hm := h.read_eq hb
  have hwrite : middle.write (place.sub selector) next =
      middle.write place (value.replace selector next) := by
    apply List.ext_getElem?
    intro c
    by_cases hcell : place.cell = c
    · subst hcell
      rw [getElem?_write_same, show place.cell = (place.sub selector).cell from rfl,
        getElem?_write_same]
      cases hw : middle[place.cell]? with
      | none => simp [Place.sub, hw]
      | some whole =>
        rw [read, hw] at hm
        simp [Place.sub, hw, Value.put_append [selector] next hm, Value.put, hs]
    · rw [getElem?_write_ne _ hcell, getElem?_write_ne _ (by exact hcell)]
  refine h.again ⟨k.length_le, fun c hc => ?_⟩
  rw [k.cells c hc, hwrite]

/-- A place whose part has been written to holds the value with that part replaced. -/
theorem read_above (hb : before.read place = some value) {selector : Selector}
    {inner next : Value δ φ} (hs : value.select selector = some inner)
    (k : Writes (place.sub selector) next before after) :
    after.read place = some (value.replace selector next) :=
  ((refl hb).part hb hs k).read_eq hb

theorem fresh (h : Writes place value before middle) {other : Place} {next : Value δ φ}
    (hother : before.length ≤ other.cell) (k : Writes other next middle after) :
    Writes place value before after := by
  refine ⟨Nat.le_trans h.length_le k.length_le, fun c hc => ?_⟩
  rw [k.getElem?_ne (by have := h.length_le; omega) (by omega), h.cells c hc]

theorem below (h : Writes place value before middle) {rest : List Selector} {next : Value δ φ}
    (k : Writes ⟨place.cell, place.path ++ rest⟩ next middle after) :
    ∃ whole, Writes place whole before after := by
  cases hw : middle[place.cell]? with
  | none =>
    refine ⟨value, Nat.le_trans h.length_le k.length_le, fun c hc => ?_⟩
    have hlt : place.cell ≠ c := by
      rintro rfl
      rw [List.getElem?_eq_none_iff] at hw
      have := h.length_le
      omega
    rw [k.getElem?_ne (by have := h.length_le; omega) hlt, h.cells c hc]
  | some top =>
    obtain ⟨whole, hput⟩ := Value.exists_put_append place.path rest top next
    refine ⟨whole, h.again ⟨k.length_le, fun c hc => ?_⟩⟩
    by_cases hcell : place.cell = c
    · subst hcell
      rw [k.cells _ hc, getElem?_write_same, hw]
      simp [Heap.write, hw, hput]
    · rw [k.getElem?_ne hc hcell, getElem?_write_ne _ hcell]

end Writes

end Heap

end Unmarshal
