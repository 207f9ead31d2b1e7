import Unmarshal.Layout.Emit
import Unmarshal.Proofs.Execution.Machine

/-!
# Evaluation of generated expressions

What the expressions of conversion code stand for: the places that it fills, and the questions that
it asks of a source.
-/
namespace Unmarshal

namespace Machine

variable {δ φ ω : Type} {M : Machine δ φ ω} {σ τ : State δ φ ω}

attribute [local simp] place eval evalAll bind Except.bind pure Except.pure

/-! ## Places -/

theorem place_ident {name : String} {cell : Nat} (h : σ.lookup name = some cell) :
    M.place (.ident name) σ = .ok (⟨cell, []⟩, σ) := by
  rw [place, h]

theorem place_deref {pointer : Expr} {p : Place} {cell : Nat}
    (hp : M.place pointer σ = .ok (p, τ)) (hread : τ.heap.read p = some (.pointer (some cell))) :
    M.place (.deref pointer) σ = .ok (⟨cell, []⟩, τ) := by
  simp [hp, State.pointee, hread]

theorem place_field {base : Expr} {p : Place} {name : String} {fields : List (Field (Value δ φ))}
    {value : Value δ φ} (hp : M.place base σ = .ok (p, τ))
    (hread : τ.heap.read p = some (.record fields))
    (hfield : Value.fieldValue? name fields = some value) :
    M.place (.field base name) σ = .ok (p.sub (.field name), τ) := by
  simp [hp, State.member, hread, hfield]

theorem eval_ident {name : String} {cell : Nat} {value : Value δ φ}
    (h : σ.lookup name = some cell) (hcell : σ.heap[cell]? = some value) :
    M.eval (.ident name) σ = .ok (value, σ) := by
  simp [h, State.load, Heap.read_cell, hcell]

theorem place_index {base position : Expr} {p q : Place} {i : Value δ φ}
    (hp : M.place base σ = .ok (p, σ)) (hposition : M.eval position σ = .ok (i, σ))
    (helem : σ.element p i = .ok q) : M.place (.index base position) σ = .ok (q, σ) := by
  simp [hp, hposition, helem]

theorem eval_index {base position : Expr} {p q : Place} {i value : Value δ φ}
    (hp : M.place base σ = .ok (p, σ)) (hposition : M.eval position σ = .ok (i, σ))
    (helem : σ.element p i = .ok q) (hread : σ.heap.read q = some value) :
    M.eval (.index base position) σ = .ok (value, σ) := by
  simp [hp, hposition, helem, State.load, hread]

/-! ## Questions -/

section

variable {source : Expr} {d : δ} {answer : Value δ φ} {world next : ω}

theorem eval_ask {accessor : Accessor}
    (hsource : M.eval source σ = .ok (.dynamic d, { σ with world := world }))
    (hask : M.ask accessor d [] world = .ok (answer, next)) :
    M.eval (source.ask accessor) σ = .ok (answer, { σ with world := next }) := by
  simp [Expr.ask, hsource, hask]

private theorem evalAll_single {e : Expr} {value : Value δ φ} (h : M.eval e σ = .ok (value, τ)) :
    M.evalAll [e] σ = .ok ([value], τ) := by
  simp [h]

theorem eval_property {name : String}
    (hsource : M.eval source σ = .ok (.dynamic d, { σ with world := world }))
    (hask : M.ask .get d [.atom (.text name)] world = .ok (answer, next)) :
    M.eval (source.property name) σ = .ok (answer, { σ with world := next }) := by
  simp [Expr.property, hsource, hask]

theorem eval_element {counter : String} {cell : Nat} {position : Value δ φ}
    (hsource : M.eval source σ = .ok (.dynamic d, { σ with world := world }))
    (hcounter : σ.lookup counter = some cell) (hcell : σ.heap[cell]? = some position)
    (hask : M.ask .index d [position] world = .ok (answer, next)) :
    M.eval (source.element counter) σ = .ok (answer, { σ with world := next }) := by
  have hposition : M.evalAll [.ident counter] { σ with world := world } =
      .ok ([position], { σ with world := world }) := evalAll_single (eval_ident hcounter hcell)
  simp only [Expr.element, eval, hsource, hposition, hask, bind, Except.bind, pure, Except.pure]

/-- Reading a scalar narrows what its accessor answers, also where no cast is written. -/
theorem eval_read {type : Scalar} {value : Atom φ}
    (hsource : M.eval source σ = .ok (.dynamic d, { σ with world := world }))
    (hask : M.ask type.access.accessor d [] world = .ok (.atom value, next))
    (haccess : value.access = type.access) :
    M.eval (type.read source) σ = .ok (.atom (M.narrow type value), { σ with world := next }) := by
  have hvalue := eval_ask hsource hask
  rw [Scalar.read]
  cases hcast : type.cast? with
  | none =>
    have hsame : M.narrow type value = value := by
      cases type <;> simp only [Scalar.cast?, reduceCtorEq] at hcast <;>
        cases value <;> simp_all [Atom.access, Scalar.access, narrow, Scalar.wrap]
    rw [hsame]
    exact hvalue
  | some name =>
    have hname : Scalar.ofName? name = some type := by
      have hown : type.name = name := by
        cases type <;> simp_all [Scalar.cast?]
      rw [← hown]
      exact type.ofName?_name
    simp [hvalue, convert, hname, haccess]

end

/-! ## Tests -/

theorem eval_absent {package : String} (h : σ.lookup package = none) (kind : AbsentKind) :
    M.eval (.absent package kind) σ = .ok (.kind (.absent kind), σ) := by
  simp [h]

theorem eval_compare {op : BinaryOp} {left right : Expr} {a b : Value δ φ} {result : Bool}
    (hleft : M.eval left σ = .ok (a, σ)) (hright : M.eval right σ = .ok (b, σ))
    (hcompare : op.compare? a b = some result) :
    M.eval (.binary op left right) σ = .ok (.atom (.bool result), σ) := by
  cases op with
  | and | or => simp [BinaryOp.compare?] at hcompare
  | eq | ne | lt =>
    simp [hleft, hright, hcompare]

theorem eval_or {left right : Expr} {a b : Bool}
    (hleft : M.eval left σ = .ok (.atom (.bool a), σ))
    (hright : M.eval right σ = .ok (.atom (.bool b), σ)) :
    M.eval (.binary .or left right) σ = .ok (.atom (.bool (a || b)), σ) := by
  cases a <;> simp [hleft, hright]

theorem eval_not {operand : Expr} {a : Bool}
    (h : M.eval operand σ = .ok (.atom (.bool a), σ)) :
    M.eval (.not operand) σ = .ok (.atom (.bool !a), σ) := by
  simp [h]

/-- The test of a guard, where the kind is bound and nothing hides the runtime package. -/
theorem eval_present {options : Options} {cell : Nat} {kind : Kind}
    (hlookup : σ.lookup options.kindVar = some cell) (hcell : σ.heap[cell]? = some (.kind kind))
    (hruntime : σ.lookup options.runtime = none) :
    M.eval (.not (.binary .or (options.isKind .undefined) (options.isKind .null))) σ =
      .ok (.atom (.bool kind.isPresent), σ) := by
  have htest (absent : AbsentKind) : M.eval (options.isKind absent) σ =
      .ok (.atom (.bool (decide (kind = .absent absent))), σ) :=
    eval_compare (eval_ident hlookup hcell) (eval_absent hruntime absent) rfl
  have hresult : (!(decide (kind = .absent .undefined) || decide (kind = .absent .null))) =
      kind.isPresent := by
    cases kind with
    | absent kind => cases kind <;> rfl
    | present tag => rfl
  rw [← hresult]
  exact eval_not (eval_or (htest .undefined) (htest .null))

theorem eval_counter_lt {counter : String} {cell k n : Nat} {bound : Expr}
    (hlookup : σ.lookup counter = some cell) (hcell : σ.heap[cell]? = some (.atom (.int k)))
    (hbound : M.eval bound σ = .ok (.atom (.int n), σ)) :
    M.eval (.binary .lt (.ident counter) bound) σ =
      .ok (.atom (.bool (decide (k < n))), σ) := by
  refine eval_compare (eval_ident hlookup hcell) hbound ?_
  simp [BinaryOp.compare?]

/-! ## New storage -/

theorem eval_new {type : Shape} {value : Value δ φ} (h : M.zero? type = some value) :
    M.eval (.new type) σ = .ok (.pointer (some σ.heap.length), σ.allocate value) := by
  simp [h]

theorem eval_make {type : Shape} {length : Expr} {value : Value δ φ} {n : Nat}
    (hzero : M.elemZero? type = some value) (hlength : M.eval length σ = .ok (.atom (.int n), σ)) :
    M.eval (.make type length) σ =
      .ok (.slice (some σ.heap.length), σ.allocate (.array (List.replicate n value))) := by
  simp [hlength, hzero]

theorem eval_composite {type : Shape} {fields : List (Field (Value δ φ))}
    (h : M.zero? type = some (.record fields)) :
    M.eval (.composite type) σ = .ok (.record fields, σ) := by
  simp [h]

theorem increment_eq {counter : String} {cell k : Nat} (hlookup : σ.lookup counter = some cell)
    (hcell : σ.heap[cell]? = some (.atom (.int k))) :
    M.increment counter σ = .ok (σ.write ⟨cell, []⟩ (.atom (.int (k + 1 : Nat)))) := by
  have hread : σ.heap.read ⟨cell, []⟩ = some (.atom (.int k)) := by rw [Heap.read_cell, hcell]
  simp [increment, hlookup, State.load, State.store, hread]

end Machine

end Unmarshal
