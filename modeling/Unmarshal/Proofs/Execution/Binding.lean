import Unmarshal.Proofs.Execution.Filling

/-!
# Binding arguments

The code for the arguments of a call runs to its end, and afterwards each argument evaluates to a
native value that the answers of its dynamic value allow. What one argument has stored is kept
while later ones are converted.
-/
namespace Unmarshal

variable {δ φ ω : Type}

/-- Code has run that leaves the names in use alone, apart from the variable of guards, and all old
memory. -/
structure State.Keeps (options : Options) (names : Names) (σ τ : State δ φ ω) : Prop where
  lookup_eq : ∀ name ∈ names.used, name ≠ options.kindVar → τ.lookup name = σ.lookup name
  length_le : σ.heap.length ≤ τ.heap.length
  cells : ∀ c < σ.heap.length, τ.heap[c]? = σ.heap[c]?

namespace State.Keeps

variable {options : Options} {names after : Names} {σ τ υ : State δ φ ω}

theorem refl (σ : State δ φ ω) : σ.Keeps options names σ :=
  ⟨fun _ _ _ => rfl, Nat.le_refl _, fun _ _ => rfl⟩

theorem trans (h : σ.Keeps options names τ) (k : τ.Keeps options after υ)
    (hnames : ∀ x ∈ names.used, x ∈ after.used) : σ.Keeps options names υ := by
  refine ⟨fun x hx hne => ?_, Nat.le_trans h.length_le k.length_le, fun c hc => ?_⟩
  · rw [k.lookup_eq x (hnames x hx) hne, h.lookup_eq x hx hne]
  · rw [k.cells c (Nat.lt_of_lt_of_le hc h.length_le), h.cells c hc]

theorem bind {name : String} (hname : name ∉ names.used) (value : Value δ φ) :
    σ.Keeps options names (σ.bind name value) := by
  refine ⟨fun x hx _ => lookup_bind_ne σ value fun heq => hname (heq ▸ hx), ?_, fun c hc => ?_⟩
  · simp [State.bind]
  · simp [State.bind, List.getElem?_append_left hc]

theorem extends_fresh (h : σ.Keeps options names τ) {place : Place}
    (hplace : σ.heap.length ≤ place.cell) (k : τ.Extends options after place υ)
    (hnames : ∀ x ∈ names.used, x ∈ after.used) : σ.Keeps options names υ := by
  obtain ⟨value, hvalue⟩ := k.writes
  refine ⟨fun x hx hne => ?_, Nat.le_trans h.length_le hvalue.length_le, fun c hc => ?_⟩
  · rw [k.lookup_eq x (hnames x hx) hne, h.lookup_eq x hx hne]
  · rw [hvalue.getElem?_ne (Nat.lt_of_lt_of_le hc h.length_le) (by omega), h.cells c hc]

end State.Keeps

namespace Machine

variable (M : Machine δ φ ω)

/-- The expression yields a dynamic value of the set in every later state, and changes nothing but
the world. -/
def Supplies (options : Options) (names : Names) (source : Expr) (D : δ → Prop)
    (σ : State δ φ ω) : Prop :=
  ∀ τ, σ.Keeps options names τ → ∃ d world, D d ∧
    M.eval source τ = .ok (.dynamic d, { τ with world := world })

/-- In every later state the expression yields a native value for the layout, all of whose cells are
from `low` on. -/
def Delivers (options : Options) (names : Names) (value : Expr) (layout : Layout) (D : δ → Prop)
    (low : Nat) (σ : State δ φ ω) : Prop :=
  ∀ τ, σ.Keeps options names τ → ∃ t v world, M.eval value τ = .ok (v, { τ with world := world }) ∧
    M.Yields layout D t ∧ t.Stored τ.heap low v

variable {M} {options : Options} {names after : Names} {source value : Expr} {D : δ → Prop}
  {layout : Layout} {low : Nat} {σ τ : State δ φ ω}

theorem Supplies.later (h : M.Supplies options names source D σ) (hτ : σ.Keeps options names τ)
    (hnames : ∀ x ∈ names.used, x ∈ after.used) : M.Supplies options after source D τ :=
  fun υ hυ => h υ (hτ.trans hυ hnames)

theorem Supplies.sources (h : M.Supplies options names source D σ) (hτ : σ.Keeps options names τ)
    {place : Place} (hplace : σ.heap.length ≤ place.cell)
    (hnames : ∀ x ∈ names.used, x ∈ after.used) : M.Sources options after place source D τ :=
  fun υ hυ => h υ (hτ.extends_fresh hplace hυ hnames)

theorem Delivers.later (h : M.Delivers options names value layout D low σ)
    (hτ : σ.Keeps options names τ) (hnames : ∀ x ∈ names.used, x ∈ after.used) :
    M.Delivers options after value layout D low τ :=
  fun υ hυ => h υ (hτ.trans hυ hnames)

theorem Delivers.mono {high : Nat} (h : M.Delivers options names value layout D high σ)
    (hle : low ≤ high) : M.Delivers options names value layout D low σ := by
  intro τ hτ
  obtain ⟨t, v, world, heval, hyields, hstored⟩ := h τ hτ
  exact ⟨t, v, world, heval, hyields, hstored.mono hle⟩

theorem delivers_ident {name : String} {cell : Nat} {v : Value δ φ} {t : Native φ}
    (hmem : name ∈ names.used) (hkind : name ≠ options.kindVar)
    (hlookup : σ.lookup name = some cell) (hcell : σ.heap[cell]? = some v)
    (hyields : M.Yields layout D t) (hstored : t.Stored σ.heap low v) :
    M.Delivers options names (.ident name) layout D low σ := by
  intro τ hτ
  have hown : τ.lookup name = some cell := (hτ.lookup_eq name hmem hkind).trans hlookup
  have hkept : τ.heap[cell]? = some v :=
    (hτ.cells cell (List.getElem?_eq_some_iff.mp hcell).1).trans hcell
  exact ⟨t, v, τ.world, eval_ident hown hkept, hyields, hstored.congr fun c _ hc => hτ.cells c hc⟩

/-- What binding a value comes to. -/
structure Binds (M : Machine δ φ ω) (options : Options) (layout : Layout) (D : δ → Prop)
    (value : Expr) (names after : Names) (σ τ : State δ φ ω) : Prop where
  keeps : σ.Keeps options names τ
  ready : τ.Ready options after
  delivers : M.Delivers options after value layout D σ.heap.length τ

private theorem fill_local (hconforms : M.Conforms options layout) (hready : σ.Ready options names)
    (hsupplies : M.Supplies options names source D σ) (hreadable : M.Readable layout D)
    (base : String) :
    ∃ τ, M.Performs (layout.fill options (names.claim base).1 source (.ident (names.claim base).1)
        (names.claim base).2).1 (σ.bind (names.claim base).1 (M.zero layout)) τ ∧
      Binds M options layout D (.ident (names.claim base).1) names
        (layout.fill options (names.claim base).1 source (.ident (names.claim base).1)
          (names.claim base).2).2 σ τ := by
  have hused := names.used_claim base
  have hnew := names.claim_not_mem base
  have hbound := hready.bind_claim base (M.zero layout)
  generalize (names.claim base).1 = name at hused hnew hbound ⊢
  generalize (names.claim base).2 = claimed at hused hbound ⊢
  have hkind : name ≠ options.kindVar := fun heq => hnew (heq ▸ hready.kindVar_mem)
  have hmem : name ∈ claimed.used := by simp [hused]
  have hgrown : ∀ x ∈ names.used, x ∈ claimed.used := fun x hx => by simp [hused, hx]
  have hlookup := State.lookup_bind_self σ name (M.zero layout)
  have hzero : (σ.bind name (M.zero layout)).heap.read ⟨σ.heap.length, []⟩ =
      some (M.zero layout) := by
    rw [Heap.read_cell]
    simp [State.bind]
  have hkeeps : σ.Keeps options names (σ.bind name (M.zero layout)) := .bind hnew _
  have htarget : M.Targets options claimed ⟨σ.heap.length, []⟩ ⟨σ.heap.length, []⟩ (.ident name)
      (σ.bind name (M.zero layout)) :=
    fun τ hτ => place_ident ((hτ.lookup_eq name hmem hkind).trans hlookup)
  obtain ⟨τ, hrun, hfills⟩ := hconforms name source (.ident name) claimed ⟨σ.heap.length, []⟩ D _
    hbound htarget (hsupplies.sources hkeeps (Nat.le_refl _) hgrown) hreadable hzero
  obtain ⟨t, v, hwrites, hyields, hstored⟩ := hfills.filled
  have hclaims := layout.fill_claims options name source (.ident name) claimed
  have hown : τ.lookup name = some σ.heap.length := (hfills.lookup_eq name hmem).trans hlookup
  have hcell : τ.heap[σ.heap.length]? = some v := by
    rw [← Heap.read_cell]
    exact hwrites.read_eq hzero
  refine ⟨τ, hrun, ?_, hfills.ready, ?_⟩
  · exact hkeeps.extends_fresh (Nat.le_refl _) ⟨fun x hx _ => hfills.lookup_eq x hx, v, hwrites⟩
      hgrown
  · exact delivers_ident (hclaims.mem_of_mem hmem) hkind hown hcell hyields
      (hstored.mono hkeeps.length_le)

/-- A slice is bound after its length, although its name is claimed before. -/
private theorem bind_slice {declared : Shape} {elem : Layout}
    (hunfold : M.types.Unfolds declared (.sequence declared elem .dynamic))
    (hconforms : M.Conforms options elem) (hready : σ.Ready options names)
    (hsupplies : M.Supplies options names source D σ)
    (hreadable : M.Readable (.sequence declared elem .dynamic) D) (base : String) :
    ∃ τ, M.Performs
        ((Layout.sequence declared elem .dynamic).bind options base source names).1.code σ τ ∧
      Binds M options (.sequence declared elem .dynamic) D
        ((Layout.sequence declared elem .dynamic).bind options base source names).1.value names
        ((Layout.sequence declared elem .dynamic).bind options base source names).2 σ τ := by
  simp only [Layout.bind]
  have hplaced := names.used_claim base
  have hplaceNew := names.claim_not_mem base
  generalize (names.claim base).1 = place at hplaced hplaceNew ⊢
  generalize (names.claim base).2 = placed at hplaced ⊢
  have hmeasured := placed.used_claim (place ++ "Len")
  have hlengthNew := placed.claim_not_mem (place ++ "Len")
  have hgrown : ∀ x ∈ names.used, x ∈ placed.used := fun x hx => by simp [hplaced, hx]
  have hreadyMeasured := fun value => (hready.mono hgrown).bind_claim (place ++ "Len") value
  generalize (placed.claim (place ++ "Len")).1 = length at hmeasured hlengthNew hreadyMeasured ⊢
  generalize (placed.claim (place ++ "Len")).2 = measured at hmeasured hreadyMeasured ⊢
  cases hreadable with
  | slice hlength hpart helem =>
    obtain ⟨d, world, hd, heval⟩ := hsupplies σ (.refl σ)
    obtain ⟨answer, next, hask, ⟨n, rfl⟩, hanswer⟩ := hlength.answers hd world
    let counted := ({ σ with world := next } : State δ φ ω).bind length (.atom (.int n))
    let cell := counted.heap.length
    let zeros : Value δ φ := .array (List.replicate n (M.zero elem))
    let made := (counted.allocate zeros).bind place (.slice (some cell))
    have hsize : cell = σ.heap.length + 1 := by simp [cell, counted, State.bind]
    have hmem : place ∈ measured.used ∧ length ∈ measured.used := by simp [hmeasured, hplaced]
    have hall : ∀ x ∈ names.used, x ∈ measured.used := fun x hx => by simp [hmeasured, hgrown x hx]
    have hplaceNe : place ≠ length := fun heq => hlengthNew (by simp [← heq, hplaced])
    have hplaceKind : place ≠ options.kindVar := fun heq => hplaceNew (heq ▸ hready.kindVar_mem)
    have hruntime : place ≠ options.runtime := fun heq => hplaceNew (heq ▸ hready.runtime_mem)
    have hlengthKind : length ≠ options.kindVar :=
      fun heq => hlengthNew (hgrown _ (heq ▸ hready.kindVar_mem))
    have hlengthFree : length ∉ names.used := fun hx => hlengthNew (hgrown _ hx)
    have hdefine : M.Performs [.define length (source.ask .length)] σ counted :=
      performs_define (eval_ask heval hask) (hready.fresh hlengthFree) (ask_ne_make source _)
    have hcountedLookup : ∀ x, x ≠ length → counted.lookup x = σ.lookup x :=
      fun x hx => State.lookup_bind_ne { σ with world := next } (.atom (.int n)) hx
    have hplaceFree : (counted.allocate zeros).block.lookup place = none := by
      show List.lookup place ((length, σ.heap.length) :: σ.block) = none
      rw [List.lookup_cons, beq_eq_false_iff_ne.mpr hplaceNe]
      exact hready.fresh hplaceNew
    have hcount : counted.lookup length = some σ.heap.length :=
      State.lookup_bind_self { σ with world := next } length (.atom (.int n))
    have hcounted : counted.heap[σ.heap.length]? = some (.atom (.int n)) := by
      simp [counted, State.bind]
    have hmakes : M.Makes (.define place (.make declared (.ident length))) n counted made :=
      .define (eval_ident hcount hcounted) <|
        steps_define (eval_make (elemZero?_of_unfolds hunfold) (eval_ident hcount hcounted))
          hplaceFree
    have hheap : made.heap = σ.heap ++ [.atom (.int n), zeros, .slice (some cell)] := by
      simp [made, counted, State.bind, State.allocate]
    have hkeeps : σ.Keeps options names made := by
      refine ⟨fun x hx _ => ?_, by simp [hheap], fun c hc => by
        rw [hheap, List.getElem?_append_left hc]⟩
      have hx : x ≠ place ∧ x ≠ length :=
        ⟨fun heq => hplaceNew (heq ▸ hx), fun heq => hlengthFree (heq ▸ hx)⟩
      exact (State.lookup_bind_ne _ _ hx.1).trans (hcountedLookup x hx.2)
    have hcountedReady : (counted.allocate zeros).Ready options measured :=
      (hreadyMeasured (.atom (.int n))).congr rfl rfl
    have hmadeReady : made.Ready options measured := hcountedReady.bind hmem.1 hruntime _
    have hown : made.lookup place = some (cell + 1) := by
      simp [made, cell, State.allocate]
    have hmadeCount : made.lookup length = some σ.heap.length :=
      (State.lookup_bind_ne _ _ hplaceNe.symm).trans hcount
    have htarget : M.Targets options measured ⟨cell, []⟩ ⟨cell + 1, []⟩ (.ident place) made :=
      fun τ hτ => place_ident ((hτ.lookup_eq place hmem.1 hplaceKind).trans hown)
    have hholder : made.heap[cell + 1]? = some (.slice (some cell)) := by
      have hindex : cell + 1 - σ.heap.length = 2 := by omega
      rw [hheap, List.getElem?_append_right (by omega), hindex]
      rfl
    have hzeros : made.heap[cell]? = some zeros := by simp [hheap, hsize]
    have hloop := loopStart_slice hmadeReady hmem.2 hlengthKind hmadeCount (by simp [hheap])
      (by rw [Heap.read_cell, hholder]) hzeros ⟨by simp, by omega⟩ htarget
      (hsupplies.sources hkeeps (by show σ.heap.length ≤ cell; omega) hall) (hpart n hanswer)
      (helem n hanswer)
    obtain ⟨heap, last, ts, values, hloops, htests, hlast, hwrites, helements⟩ :=
      loop_fills hconforms (place ++ "Elt") (place ++ "Idx") hloop
    have hclaims := (Layout.fill_claims options elem (place ++ "Elt")
      (source.element (measured.claim (place ++ "Idx")).1)
      (.index (.ident place) (.ident (measured.claim (place ++ "Idx")).1))
      (measured.claim (place ++ "Idx")).2).claim_then
    have hafter :
        ({ made with heap := heap, world := last } : State δ φ ω).Ready options measured :=
      hmadeReady.congr rfl rfl
    have hfilled : heap[cell]? = some (.array values) := by
      rw [← Heap.read_cell]
      exact hwrites.read_eq (by rw [Heap.read_cell, hzeros])
    have hheld : heap[cell + 1]? = some (.slice (some cell)) :=
      (hwrites.getElem?_ne (List.getElem?_eq_some_iff.mp hholder).1 (by simp)).trans hholder
    refine ⟨_, Performs.cons hdefine (performs_make hmakes hloops htests), ?_,
      hafter.mono fun _ => hclaims.mem_of_mem, ?_⟩
    · exact hkeeps.extends_fresh (by show σ.heap.length ≤ cell; omega)
        ⟨fun _ _ _ => rfl, _, hwrites⟩ hall
    · refine delivers_ident (hclaims.mem_of_mem hmem.1) hplaceKind hown hheld
        (.slice (by rw [helements.length_eq, hlast]; exact hanswer) helements.yields) ?_
      exact .slice (by omega) hfilled helements.length_eq
        fun p hp => (helements.stored p hp).mono hkeeps.length_le

theorem bind_binds (hne : options.kindVar ≠ options.runtime)
    (hdistinct : layout.EveryRecord List.Nodup)
    (hunfold : M.types.Unfolds layout.declared layout) (hready : σ.Ready options names)
    (hsupplies : M.Supplies options names source D σ) (hreadable : M.Readable layout D)
    (base : String) :
    ∃ τ, M.Performs (layout.bind options base source names).1.code σ τ ∧
      Binds M options layout D (layout.bind options base source names).1.value names
        (layout.bind options base source names).2 σ τ := by
  have hconforms := conforms hne hdistinct hunfold
  have hzero := zero?_of_unfolds hunfold
  have hfree := hready.fresh (names.claim_not_mem base)
  cases layout with
  | scalar declared type =>
    cases hreadable with
    | scalar hanswered =>
      refine ⟨σ, .nil, .refl σ, hready, fun τ hτ => ?_⟩
      obtain ⟨d, world, hd, heval⟩ := hsupplies τ hτ
      obtain ⟨answer, next, hask, ⟨atom, rfl, haccess⟩, hanswer⟩ := hanswered.answers hd world
      exact ⟨_, _, next, eval_read heval hask haccess, .scalar hanswer, .atom _⟩
  | optional declared pointee =>
    obtain ⟨τ, hrun, hbinds⟩ := fill_local hconforms hready hsupplies hreadable base
    exact ⟨τ, Performs.cons (performs_declare hzero hfree) hrun, hbinds⟩
  | record declared fields =>
    obtain ⟨τ, hrun, hbinds⟩ := fill_local hconforms hready hsupplies hreadable base
    have hdefine := performs_define (eval_composite hzero) hfree (by simp)
    exact ⟨τ, Performs.cons hdefine hrun, hbinds⟩
  | sequence declared elem extent =>
    cases extent with
    | fixed length =>
      obtain ⟨τ, hrun, hbinds⟩ := fill_local hconforms hready hsupplies hreadable base
      exact ⟨τ, Performs.cons (performs_declare hzero hfree) hrun, hbinds⟩
    | dynamic =>
      have hpart := hunfold.part elem (by simp [Layout.parts])
      exact bind_slice hunfold (conforms hne hdistinct hpart) hready hsupplies hreadable base

/-- The arguments of a call are converted one after the other, and all are delivered in the end.
`D i` are the dynamic values that the argument list may yield at position `i`. -/
theorem emit_binds {D : Nat → δ → Prop} (hne : options.kindVar ≠ options.runtime)
    {layouts : List (Field Layout)} (hdistinct : ∀ f ∈ layouts, f.type.EveryRecord List.Nodup)
    (hunfold : ∀ f ∈ layouts, M.types.Unfolds f.type.declared f.type) (index : Nat)
    (hready : σ.Ready options names)
    (hsupplies : ∀ i, index ≤ i → i < index + layouts.length →
      M.Supplies options names (.index (.ident options.args) (.int i)) (D i) σ)
    (hreadable : ∀ i f, layouts[i]? = some f → M.Readable f.type (D (index + i))) :
    ∃ τ, M.Performs (Arguments.emit options index layouts names).code σ τ ∧
      σ.Keeps options names τ ∧
      (Arguments.emit options index layouts names).values.length = layouts.length ∧
      ∀ i f value, layouts[i]? = some f →
        (Arguments.emit options index layouts names).values[i]? = some value →
        M.Delivers options (Arguments.namesAfter options index layouts names) value f.type
          (D (index + i)) σ.heap.length τ := by
  induction layouts generalizing index names σ with
  | nil => exact ⟨σ, .nil, .refl σ, rfl, by simp⟩
  | cons f layouts ih =>
    obtain ⟨base, layout⟩ := f
    let source : Expr := .index (.ident options.args) (.int index)
    obtain ⟨τ, hrun, hbinds⟩ := bind_binds hne (hdistinct ⟨base, layout⟩ (by simp))
      (hunfold ⟨base, layout⟩ (by simp)) hready
      (hsupplies index (Nat.le_refl _) (by simp)) (hreadable 0 ⟨base, layout⟩ rfl) base
    have hclaims := layout.bind_claims options base source names
    have hmem : ∀ x ∈ names.used, x ∈ (layout.bind options base source names).2.used :=
      fun _ => hclaims.mem_of_mem
    obtain ⟨υ, hrunRest, hkeeps, hlength, hdelivers⟩ := ih
      (fun f hf => hdistinct f (by simp [hf])) (fun f hf => hunfold f (by simp [hf])) (index + 1)
      hbinds.ready
      (fun i hle hlt => (hsupplies i (by omega) (by simp; omega)).later hbinds.keeps hmem)
      (fun i f hf => by
        have hpart := hreadable (i + 1) f hf
        rwa [show index + (i + 1) = index + 1 + i by omega] at hpart)
    have hlater := (Arguments.emit_claims options (index + 1) layouts
      (layout.bind options base source names).2)
    refine ⟨υ, hrun.append hrunRest, hbinds.keeps.trans hkeeps hmem,
      by simp [Arguments.emit, hlength], fun i f value hf hvalue => ?_⟩
    cases i with
    | zero =>
      obtain rfl : f = ⟨base, layout⟩ := by simpa using hf.symm
      obtain rfl : value = (layout.bind options base source names).1.value := by
        simpa [Arguments.emit] using hvalue.symm
      exact hbinds.delivers.later hkeeps fun _ => hlater.mem_of_mem
    | succ i =>
      have hrest := hdelivers i f value hf hvalue
      rw [show index + 1 + i = index + (i + 1) by omega] at hrest
      exact hrest.mono hbinds.keeps.length_le

end Machine

end Unmarshal
