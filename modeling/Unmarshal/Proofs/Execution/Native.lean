import Unmarshal.Proofs.Execution.Machine

/-!
# Native values

What a converted value is when its cells are left out: trees, and the relation between a tree and a
value in memory. The cells behind a stored tree are bounded from below, so that it stays stored when
only older cells change.
-/
namespace Unmarshal

/-- A native value without cells. -/
inductive Native (φ : Type) where
  | atom (value : Atom φ)
  | absent
  | pointer (target : Native φ)
  | slice (elems : List (Native φ))
  | array (elems : List (Native φ))
  | record (fields : List (Field (Native φ)))

namespace Native

variable {δ φ : Type}

/-- A value is a tree in a heap, and refers only to cells from `low` on. -/
inductive Stored (heap : Heap δ φ) (low : Nat) : Native φ → Value δ φ → Prop where
  | atom (value : Atom φ) : Stored heap low (.atom value) (.atom value)
  | absent : Stored heap low .absent (.pointer none)
  | pointer {t : Native φ} {v : Value δ φ} {cell : Nat} (hlow : low ≤ cell)
      (hcell : heap[cell]? = some v) (h : Stored heap low t v) :
      Stored heap low (.pointer t) (.pointer (some cell))
  | slice {ts : List (Native φ)} {vs : List (Value δ φ)} {cell : Nat} (hlow : low ≤ cell)
      (hcell : heap[cell]? = some (.array vs)) (hlength : ts.length = vs.length)
      (h : ∀ p ∈ ts.zip vs, Stored heap low p.1 p.2) :
      Stored heap low (.slice ts) (.slice (some cell))
  | array {ts : List (Native φ)} {vs : List (Value δ φ)} (hlength : ts.length = vs.length)
      (h : ∀ p ∈ ts.zip vs, Stored heap low p.1 p.2) : Stored heap low (.array ts) (.array vs)
  | record {ts : List (Field (Native φ))} {vs : List (Field (Value δ φ))}
      (hnames : ts.map Field.name = vs.map Field.name)
      (h : ∀ p ∈ ts.zip vs, Stored heap low p.1.type p.2.type) :
      Stored heap low (.record ts) (.record vs)

namespace Stored

variable {heap after : Heap δ φ} {low high : Nat} {t : Native φ} {v : Value δ φ}

theorem congr (h : Stored heap low t v)
    (hcells : ∀ c, low ≤ c → c < heap.length → after[c]? = heap[c]?) :
    Stored after low t v := by
  have hkept : ∀ {c : Nat} {w : Value δ φ}, low ≤ c → heap[c]? = some w → after[c]? = some w := by
    intro c w hlow hw
    rw [hcells c hlow (List.getElem?_eq_some_iff.mp hw).1, hw]
  induction h with
  | atom value => exact .atom value
  | absent => exact .absent
  | pointer hlow hcell _ ih => exact .pointer hlow (hkept hlow hcell) ih
  | slice hlow hcell hlength _ ih => exact .slice hlow (hkept hlow hcell) hlength ih
  | array hlength _ ih => exact .array hlength ih
  | record hnames _ ih => exact .record hnames ih

theorem mono (h : Stored heap high t v) (hle : low ≤ high) : Stored heap low t v := by
  induction h with
  | atom value => exact .atom value
  | absent => exact .absent
  | pointer hlow hcell _ ih => exact .pointer (Nat.le_trans hle hlow) hcell ih
  | slice hlow hcell hlength _ ih => exact .slice (Nat.le_trans hle hlow) hcell hlength ih
  | array hlength _ ih => exact .array hlength ih
  | record hnames _ ih => exact .record hnames ih

theorem writes {place : Place} {value : Value δ φ} (h : Stored heap low t v)
    (hplace : place.cell < low) (hw : Heap.Writes place value heap after) :
    Stored after low t v :=
  h.congr fun _ hlow hlt => hw.getElem?_ne hlt (by omega)

end Stored

end Native

end Unmarshal
