import Unmarshal.Layout.Emit
import Unmarshal.Proofs.Execution.Native

/-!
# Answers of dynamic values

The questions that a conversion asks, and the native values that it may yield. Both are stated for
a set of dynamic values, as asking twice for a part need not give the same part twice.
-/
namespace Unmarshal

namespace Machine

variable {δ φ ω : Type} (M : Machine δ φ ω)

/-- Some value of a set may give this answer. -/
def Answers (D : δ → Prop) (accessor : Accessor) (args : List (Value δ φ))
    (answer : Value δ φ) : Prop :=
  ∃ d world next, D d ∧ M.ask accessor d args world = .ok (answer, next)

/-- Every value of a set answers, in any world, and the answer has a property. -/
def Answered (D : δ → Prop) (accessor : Accessor) (args : List (Value δ φ))
    (P : Value δ φ → Prop) : Prop :=
  ∀ d, D d → ∀ world, ∃ answer next, M.ask accessor d args world = .ok (answer, next) ∧ P answer

/-- The dynamic values with which the values of a set may answer. -/
def Part (D : δ → Prop) (accessor : Accessor) (args : List (Value δ φ)) : δ → Prop :=
  fun d => M.Answers D accessor args (.dynamic d)

/-- Every value of a set has a dynamic value as a part. -/
def HasPart (D : δ → Prop) (accessor : Accessor) (args : List (Value δ φ)) : Prop :=
  M.Answered D accessor args fun answer => ∃ d, answer = .dynamic d

/-- The elements of the values of a set at one position. -/
def Elem (D : δ → Prop) (position : Nat) : δ → Prop :=
  M.Part D .index [.atom (.int position)]

/-- The properties of the values of a set under one name. -/
def Property (D : δ → Prop) (name : String) : δ → Prop := M.Part D .get [.atom (.text name)]

/-- Every question that converting a value of the set to a layout may ask is answered. What is
behind a pointer is asked only of values that are present, and elements are asked up to a length
that was answered. -/
inductive Readable : Layout → (δ → Prop) → Prop where
  | scalar {declared : Shape} {type : Scalar} {D : δ → Prop}
      (h : M.Answered D type.access.accessor [] fun answer =>
        ∃ value, answer = .atom value ∧ value.access = type.access) :
      Readable (.scalar declared type) D
  | optional {declared : Shape} {pointee : Layout} {D : δ → Prop}
      (hkind : M.Answered D .type [] fun answer => ∃ kind, answer = .kind kind)
      (h : ∀ tag, M.Answers D .type [] (.kind (.present tag)) → Readable pointee D) :
      Readable (.optional declared pointee) D
  | array {declared : Shape} {elem : Layout} {length : UInt64} {D : δ → Prop}
      (helem : ∀ i < length.toNat, M.HasPart D .index [.atom (.int i)])
      (h : ∀ i < length.toNat, Readable elem (M.Elem D i)) :
      Readable (.sequence declared elem (.fixed length)) D
  | slice {declared : Shape} {elem : Layout} {D : δ → Prop}
      (hlength : M.Answered D .length [] fun answer => ∃ n : Nat, answer = .atom (.int n))
      (helem : ∀ n : Nat, M.Answers D .length [] (.atom (.int n)) →
        ∀ i < n, M.HasPart D .index [.atom (.int i)])
      (h : ∀ n : Nat, M.Answers D .length [] (.atom (.int n)) →
        ∀ i < n, Readable elem (M.Elem D i)) :
      Readable (.sequence declared elem .dynamic) D
  | record {declared : Shape} {fields : List (Field Layout)} {D : δ → Prop}
      (hfield : ∀ f ∈ fields, M.HasPart D .get [.atom (.text f.name)])
      (h : ∀ f ∈ fields, Readable f.type (M.Property D f.name)) :
      Readable (.record declared fields) D

/-- The native values that converting a value of the set to a layout may yield. -/
inductive Yields : Layout → (δ → Prop) → Native φ → Prop where
  | scalar {declared : Shape} {type : Scalar} {D : δ → Prop} {value : Atom φ}
      (h : M.Answers D type.access.accessor [] (.atom value)) :
      Yields (.scalar declared type) D (.atom (M.narrow type value))
  | absent {declared : Shape} {pointee : Layout} {D : δ → Prop} {kind : AbsentKind}
      (hkind : M.Answers D .type [] (.kind (.absent kind))) :
      Yields (.optional declared pointee) D .absent
  | present {declared : Shape} {pointee : Layout} {D : δ → Prop} {tag : Nat} {t : Native φ}
      (hkind : M.Answers D .type [] (.kind (.present tag))) (h : Yields pointee D t) :
      Yields (.optional declared pointee) D (.pointer t)
  | array {declared : Shape} {elem : Layout} {length : UInt64} {D : δ → Prop}
      {ts : List (Native φ)} (hlength : ts.length = length.toNat)
      (h : ∀ i t, ts[i]? = some t → Yields elem (M.Elem D i) t) :
      Yields (.sequence declared elem (.fixed length)) D (.array ts)
  | slice {declared : Shape} {elem : Layout} {D : δ → Prop} {ts : List (Native φ)}
      (hlength : M.Answers D .length [] (.atom (.int ts.length)))
      (h : ∀ i t, ts[i]? = some t → Yields elem (M.Elem D i) t) :
      Yields (.sequence declared elem .dynamic) D (.slice ts)
  | record {declared : Shape} {fields : List (Field Layout)} {D : δ → Prop}
      {ts : List (Field (Native φ))} (hnames : fields.map Field.name = ts.map Field.name)
      (h : ∀ p ∈ fields.zip ts, Yields p.1.type (M.Property D p.1.name) p.2.type) :
      Yields (.record declared fields) D (.record ts)

variable {M}

theorem Answered.answers {D : δ → Prop} {accessor : Accessor} {args : List (Value δ φ)}
    {P : Value δ φ → Prop} (h : M.Answered D accessor args P) {d : δ} (hd : D d) (world : ω) :
    ∃ answer next, M.ask accessor d args world = .ok (answer, next) ∧ P answer ∧
      M.Answers D accessor args answer := by
  obtain ⟨answer, next, hask, hP⟩ := h d hd world
  exact ⟨answer, next, hask, hP, d, world, next, hd, hask⟩

end Machine

end Unmarshal
