import Unmarshal.Layout.Basic
import Unmarshal.Proofs.Execution.Memory

/-!
# Running conversion code

The meaning of expressions and statements as native code: locals live in nested blocks, arrays and
records are values, new storage is zeroed, and a dynamic value is only asked through its accessors.
Types, conversions and the builtins are what their names say wherever they stand. A run stops at a
trap, or when the fuel for its loops is used up.
-/
namespace Unmarshal

/-- Why a run stops before its end. `stuck` stands for what does not compile. -/
inductive Trap where
  | outOfFuel
  | nilDereference
  | outOfRange
  | stuck
deriving DecidableEq, Repr

/-- The innermost block of locals, the blocks around it, the memory, and the world that dynamic
values belong to. A local is a cell. -/
structure State (δ φ ω : Type) where
  block : List (String × Nat)
  outer : List (List (String × Nat))
  heap : Heap δ φ
  world : ω

/-- What a run depends on: the named types, the answers of dynamic values, and the two facts about
floating-point numbers that matter here. -/
structure Machine (δ φ ω : Type) where
  types : AliasTable
  ask : Accessor → δ → List (Value δ φ) → ω → Except Trap (Value δ φ × ω)
  zeroFloat : φ
  single : φ → φ

variable {δ φ ω : Type}

/-! ## Types -/

mutual

/-- The zero value of a type, given those of the names in it. Behind a pointer or a slice there is
nothing yet. -/
def Shape.zeroWith (leaf : String → Option (Value δ φ)) : Shape → Option (Value δ φ)
  | .named name => leaf name
  | .optional _ => some (.pointer none)
  | .sequence _ .dynamic => some (.slice none)
  | .sequence elem (.fixed length) =>
    (elem.zeroWith leaf).map fun value => .array (List.replicate length.toNat value)
  | .record fields => (Shape.zeroFields leaf fields).map .record

def Shape.zeroFields (leaf : String → Option (Value δ φ)) :
    List (Field Shape) → Option (List (Field (Value δ φ)))
  | [] => some []
  | ⟨name, type⟩ :: fields =>
    match type.zeroWith leaf, Shape.zeroFields leaf fields with
    | some value, some values => some (⟨name, value⟩ :: values)
    | _, _ => none

end

/-- What a name stands for when names are followed at the top of a type only. -/
def AliasTable.underlyingOf (table : AliasTable) (path : List String) (name : String) :
    Option Shape :=
  match Scalar.ofName? name with
  | some _ => some (.named name)
  | none =>
    if name ∈ path then none
    else
      match _known : table.find? name with
      | none => none
      | some (.named inner) => table.underlyingOf (name :: path) inner
      | some shape => some shape
termination_by table.unvisited path
decreasing_by exact unvisited_cons_lt (mem_keys_of_find? _known) (by assumption)

/-- A type with the names at its top followed. -/
def AliasTable.underlying? (table : AliasTable) : Shape → Option Shape
  | .named name => table.underlyingOf [] name
  | shape => some shape

/-- A whole number converted to an integer type, of which it keeps the low bits. The type that the
accessor yields, and the types that are no integers, need no conversion. -/
def Scalar.wrap (type : Scalar) (value : Int) : Int :=
  match type with
  | .int8 => (Int8.ofInt value).toInt
  | .int16 => (Int16.ofInt value).toInt
  | .int32 | .rune => (Int32.ofInt value).toInt
  | .int64 => (Int64.ofInt value).toInt
  | .uint8 | .byte => (UInt8.ofInt value).toNat
  | .uint16 => (UInt16.ofInt value).toNat
  | .uint32 => (UInt32.ofInt value).toNat
  | .uint | .uint64 | .uintptr => (UInt64.ofInt value).toNat
  | .bool | .string | .int | .float32 | .float64 => value

namespace Machine

variable (M : Machine δ φ ω)

/-- The zero of the scalars that are read in one way. -/
def zeroAtom : ScalarAccess → Atom φ
  | .bool => .bool false
  | .string => .text ""
  | .int => .int 0
  | .float => .float M.zeroFloat

/-- The zero value of a named type. A type that contains itself has none. -/
def zeroOf (path : List String) (name : String) : Option (Value δ φ) :=
  match Scalar.ofName? name with
  | some type => some (.atom (M.zeroAtom type.access))
  | none =>
    if name ∈ path then none
    else
      match _known : M.types.find? name with
      | none => none
      | some shape => shape.zeroWith fun inner => zeroOf (name :: path) inner
termination_by M.types.unvisited path
decreasing_by
  exact AliasTable.unvisited_cons_lt (AliasTable.mem_keys_of_find? _known) (by assumption)

def zero? (type : Shape) : Option (Value δ φ) := type.zeroWith (M.zeroOf [])

def elemZero? (type : Shape) : Option (Value δ φ) :=
  match M.types.underlying? type with
  | some (.sequence elem .dynamic) => M.zero? elem
  | _ => none

/-- An atom converted to a scalar type that is read in the same way. -/
def narrow (type : Scalar) : Atom φ → Atom φ
  | .int value => .int (type.wrap value)
  | .float value => .float (if type = .float32 then M.single value else value)
  | value => value

end Machine

/-! ## States -/

namespace State

variable (σ : State δ φ ω)

def lookup (name : String) : Option Nat := (σ.block ++ σ.outer.flatten).lookup name

def enter : State δ φ ω := { σ with block := [], outer := σ.block :: σ.outer }

def leave : State δ φ ω := { σ with block := σ.outer.headD [], outer := σ.outer.tail }

def bind (name : String) (value : Value δ φ) : State δ φ ω :=
  { σ with block := (name, σ.heap.length) :: σ.block, heap := σ.heap ++ [value] }

/-- Declares a local. A block declares a name only once. -/
def declare (name : String) (value : Value δ φ) : Except Trap (State δ φ ω) :=
  if σ.block.lookup name = none then .ok (σ.bind name value) else .error .stuck

def load (p : Place) : Except Trap (Value δ φ) :=
  match σ.heap.read p with
  | some value => .ok value
  | none => .error .stuck

/-- The state with another value at a place. -/
def write (p : Place) (value : Value δ φ) : State δ φ ω :=
  { σ with heap := σ.heap.write p value }

/-- Puts a value at a place that there is. -/
def store (p : Place) (value : Value δ φ) : Except Trap (State δ φ ω) :=
  match σ.heap.read p with
  | some _ => .ok (σ.write p value)
  | none => .error .stuck

def allocate (value : Value δ φ) : State δ φ ω := { σ with heap := σ.heap ++ [value] }

@[simp] theorem lookup_enter (name : String) : σ.enter.lookup name = σ.lookup name := rfl

@[simp] theorem lookup_write (p : Place) (value : Value δ φ) (name : String) :
    (σ.write p value).lookup name = σ.lookup name := rfl

@[simp] theorem lookup_allocate (value : Value δ φ) (name : String) :
    (σ.allocate value).lookup name = σ.lookup name := rfl

@[simp] theorem lookup_bind_self (name : String) (value : Value δ φ) :
    (σ.bind name value).lookup name = some σ.heap.length := by
  simp [lookup, bind]

theorem lookup_bind_ne {name other : String} (value : Value δ φ) (h : other ≠ name) :
    (σ.bind name value).lookup other = σ.lookup other := by
  simp [lookup, bind, List.lookup_cons, beq_eq_false_iff_ne.mpr h]

/-- After a block only what it did to memory and to the world remains. -/
theorem leave_of_outer {σ τ : State δ φ ω} (h : τ.outer = σ.block :: σ.outer) :
    τ.leave = { σ with heap := τ.heap, world := τ.world } := by
  simp [leave, h]

/-- The cell that the pointer at a place refers to. -/
def pointee (p : Place) : Except Trap Place :=
  match σ.heap.read p with
  | some (.pointer (some cell)) => .ok ⟨cell, []⟩
  | some (.pointer none) => .error .nilDereference
  | _ => .error .stuck

/-- A field of the record at a place. -/
def member (p : Place) (name : String) : Except Trap Place :=
  match σ.heap.read p with
  | some (.record fields) =>
    match Value.fieldValue? name fields with
    | some _ => .ok (p.sub (.field name))
    | none => .error .stuck
  | _ => .error .stuck

/-- An element of the array, or behind the slice, at a place. -/
def element (p : Place) : Value δ φ → Except Trap Place
  | .atom (.int i) =>
    match σ.heap.read p with
    | some (.array elems) =>
      if 0 ≤ i ∧ i.toNat < elems.length then .ok (p.sub (.elem i.toNat)) else .error .outOfRange
    | some (.slice none) => .error .outOfRange
    | some (.slice (some cell)) =>
      match σ.heap.read ⟨cell, []⟩ with
      | some (.array elems) =>
        if 0 ≤ i ∧ i.toNat < elems.length then .ok ((⟨cell, []⟩ : Place).sub (.elem i.toNat))
        else .error .outOfRange
      | _ => .error .stuck
    | _ => .error .stuck
  | _ => .error .stuck

theorem element_array {σ : State δ φ ω} {p : Place} {elems : List (Value δ φ)} {i : Nat}
    (hread : σ.heap.read p = some (.array elems)) (hi : i < elems.length) :
    σ.element p (.atom (.int i)) = .ok (p.sub (.elem i)) := by
  simp [element, hread, hi]

theorem element_slice {σ : State δ φ ω} {p : Place} {cell : Nat} {elems : List (Value δ φ)}
    {i : Nat} (hslice : σ.heap.read p = some (.slice (some cell)))
    (hread : σ.heap.read ⟨cell, []⟩ = some (.array elems)) (hi : i < elems.length) :
    σ.element p (.atom (.int i)) = .ok ((⟨cell, []⟩ : Place).sub (.elem i)) := by
  simp [element, hslice, hread, hi]

end State

/-- A computation in two parts succeeds if both of them do. -/
theorem Machine.bind_eq_ok_iff {ε α β : Type} {first : Except ε α} {rest : α → Except ε β}
    {result : β} : first >>= rest = .ok result ↔ ∃ a, first = .ok a ∧ rest a = .ok result := by
  cases first with
  | error e => simp [bind, Except.bind]
  | ok a => simp [bind, Except.bind]

/-! ## Expressions -/

def Value.equal? : Value δ φ → Value δ φ → Option Bool
  | .kind a, .kind b => some (decide (a = b))
  | .atom (.bool a), .atom (.bool b) => some (a == b)
  | .atom (.text a), .atom (.text b) => some (a == b)
  | .atom (.int a), .atom (.int b) => some (decide (a = b))
  | _, _ => none

def BinaryOp.compare? : BinaryOp → Value δ φ → Value δ φ → Option Bool
  | .eq, a, b => a.equal? b
  | .ne, a, b => (a.equal? b).map not
  | .lt, .atom (.int a), .atom (.int b) => some (decide (a < b))
  | _, _, _ => none

namespace Machine

variable (M : Machine δ φ ω)

def convert (type : String) : Value δ φ → Except Trap (Value δ φ)
  | .atom value =>
    match Scalar.ofName? type with
    | some scalar =>
      if value.access = scalar.access then .ok (.atom (M.narrow scalar value)) else .error .stuck
    | none => .error .stuck
  | _ => .error .stuck

mutual

def place : Expr → State δ φ ω → Except Trap (Place × State δ φ ω)
  | .ident name, σ =>
    match σ.lookup name with
    | some cell => .ok (⟨cell, []⟩, σ)
    | none => .error .stuck
  | .deref pointer, σ => do
    let (p, σ) ← place pointer σ
    return (← σ.pointee p, σ)
  | .field base name, σ => do
    let (p, σ) ← place base σ
    return (← σ.member p name, σ)
  | .index base position, σ => do
    let (p, σ) ← place base σ
    let (i, σ) ← eval position σ
    return (← σ.element p i, σ)
  | _, _ => .error .stuck

/-- The value of an expression. A constant of the runtime package can be named only where no local
hides the package. -/
def eval : Expr → State δ φ ω → Except Trap (Value δ φ × State δ φ ω)
  | .ident name, σ =>
    match σ.lookup name with
    | some cell => do return (← σ.load ⟨cell, []⟩, σ)
    | none => .error .stuck
  | .deref pointer, σ => do
    let (p, σ) ← place pointer σ
    return (← σ.load (← σ.pointee p), σ)
  | .field base name, σ => do
    let (p, σ) ← place base σ
    return (← σ.load (← σ.member p name), σ)
  | .index base position, σ => do
    let (p, σ) ← place base σ
    let (i, σ) ← eval position σ
    return (← σ.load (← σ.element p i), σ)
  | .int value, σ => .ok (.atom (.int value), σ)
  | .str text, σ => .ok (.atom (.text text), σ)
  | .access value accessor args, σ => do
    let (v, σ) ← eval value σ
    let (args, σ) ← evalAll args σ
    match v with
    | .dynamic d => do
      let (answer, world) ← M.ask accessor d args σ.world
      return (answer, { σ with world := world })
    | _ => .error .stuck
  | .cast type value, σ => do
    let (v, σ) ← eval value σ
    return (← M.convert type v, σ)
  | .not operand, σ => do
    match ← eval operand σ with
    | (.atom (.bool b), σ) => return (.atom (.bool !b), σ)
    | _ => .error .stuck
  | .binary .and left right, σ => do
    match ← eval left σ with
    | (.atom (.bool true), σ) => eval right σ
    | (.atom (.bool false), σ) => return (.atom (.bool false), σ)
    | _ => .error .stuck
  | .binary .or left right, σ => do
    match ← eval left σ with
    | (.atom (.bool true), σ) => return (.atom (.bool true), σ)
    | (.atom (.bool false), σ) => eval right σ
    | _ => .error .stuck
  | .binary op left right, σ => do
    let (a, σ) ← eval left σ
    let (b, σ) ← eval right σ
    match op.compare? a b with
    | some result => return (.atom (.bool result), σ)
    | none => .error .stuck
  | .absent package kind, σ =>
    match σ.lookup package with
    | none => .ok (.kind (.absent kind), σ)
    | some _ => .error .stuck
  | .new type, σ =>
    match M.zero? type with
    | some value => .ok (.pointer (some σ.heap.length), σ.allocate value)
    | none => .error .stuck
  | .make type length, σ => do
    let (n, σ) ← eval length σ
    match M.elemZero? type, n with
    | some value, .atom (.int n) =>
      if 0 ≤ n then
        return (.slice (some σ.heap.length), σ.allocate (.array (List.replicate n.toNat value)))
      else .error .outOfRange
    | _, _ => .error .stuck
  | .composite type, σ =>
    match M.zero? type with
    | some (.record fields) => .ok (.record fields, σ)
    | _ => .error .stuck
  | .call _ _, _ => .error .stuck

def evalAll : List Expr → State δ φ ω → Except Trap (List (Value δ φ) × State δ φ ω)
  | [], σ => .ok ([], σ)
  | e :: es, σ => do
    let (v, σ) ← eval e σ
    let (vs, σ) ← evalAll es σ
    return (v :: vs, σ)

end

/-! ## Statements -/

def increment (counter : String) (σ : State δ φ ω) : Except Trap (State δ φ ω) := do
  let (p, σ) ← M.place (.ident counter) σ
  match ← σ.load p with
  | .atom (.int i) => σ.store p (.atom (.int (i + 1)))
  | _ => .error .stuck

mutual

def run : Nat → List Stmt → State δ φ ω → Except Trap (State δ φ ω)
  | 0, _, _ => .error .outOfFuel
  | _ + 1, [], σ => .ok σ
  | fuel + 1, s :: rest, σ => do run fuel rest (← step fuel s σ)

/-- Runs one statement. The header of a branch or of a loop has a block of its own around that of
the body. -/
def step : Nat → Stmt → State δ φ ω → Except Trap (State δ φ ω)
  | 0, _, _ => .error .outOfFuel
  | _ + 1, .declare name type, σ =>
    match M.zero? type with
    | some value => σ.declare name value
    | none => .error .stuck
  | _ + 1, .define name value, σ => do
    let (v, σ) ← M.eval value σ
    σ.declare name v
  | _ + 1, .assign target value, σ => do
    let (p, σ) ← M.place target σ
    let (v, σ) ← M.eval value σ
    σ.store p v
  | fuel + 1, .branch init condition body, σ => do
    let σ ← run fuel init.toList σ.enter
    match ← M.eval condition σ with
    | (.atom (.bool true), σ) => do return (← run fuel body σ.enter).leave.leave
    | (.atom (.bool false), σ) => return σ.leave
    | _ => .error .stuck
  | fuel + 1, .loop counter bound body, σ => do
    let σ ← σ.enter.declare counter (.atom (.int 0))
    return (← rounds fuel counter bound body σ).leave

/-- Runs the rounds of a loop that are left: the bound is looked at before each. -/
def rounds : Nat → String → Expr → List Stmt → State δ φ ω → Except Trap (State δ φ ω)
  | 0, _, _, _, _ => .error .outOfFuel
  | fuel + 1, counter, bound, body, σ => do
    match ← M.eval (.binary .lt (.ident counter) bound) σ with
    | (.atom (.bool true), σ) => do
      let σ ← run fuel body σ.enter
      let σ ← M.increment counter σ.leave
      rounds fuel counter bound body σ
    | (.atom (.bool false), σ) => return σ
    | _ => .error .stuck

end

end Machine

end Unmarshal
