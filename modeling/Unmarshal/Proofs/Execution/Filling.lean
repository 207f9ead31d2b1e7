import Unmarshal.Proofs.Freshness
import Unmarshal.Proofs.Execution.Answers
import Unmarshal.Proofs.Execution.Evaluation
import Unmarshal.Proofs.Execution.Sizes
import Unmarshal.Proofs.Execution.Zero

/-!
# Filling a place

The code for a layout runs to its end and leaves a native value that the answers of the source
allow, in the given place and nowhere else. The source and the target keep their meaning while
code runs that declares only claimed names and writes only to the place and to new cells.
-/
namespace Unmarshal

variable {δ φ ω : Type}

namespace State

/-- Every local of the block has claimed its name, and no local hides the runtime package. Locals
around the block may be hidden. -/
structure Ready (options : Options) (names : Names) (σ : State δ φ ω) : Prop where
  declared : ∀ name, σ.block.lookup name ≠ none → name ∈ names.used
  kindVar_mem : options.kindVar ∈ names.used
  runtime_mem : options.runtime ∈ names.used
  runtime_free : σ.lookup options.runtime = none

/-- Code has run that leaves the names in use alone, apart from the variable of guards, and old
memory apart from a place. -/
structure Extends (options : Options) (names : Names) (place : Place) (σ τ : State δ φ ω) :
    Prop where
  lookup_eq : ∀ name ∈ names.used, name ≠ options.kindVar → τ.lookup name = σ.lookup name
  writes : ∃ value, Heap.Writes place value σ.heap τ.heap

variable {options : Options} {names after : Names} {place : Place} {σ τ υ : State δ φ ω}

namespace Ready

theorem fresh (h : σ.Ready options names) {name : String} (hname : name ∉ names.used) :
    σ.block.lookup name = none := by
  cases hlookup : σ.block.lookup name with
  | none => rfl
  | some cell => exact absurd (h.declared name (by simp [hlookup])) hname

theorem mono (h : σ.Ready options names) (hnames : ∀ x ∈ names.used, x ∈ after.used) :
    σ.Ready options after :=
  ⟨fun name hname => hnames name (h.declared name hname), hnames _ h.kindVar_mem,
    hnames _ h.runtime_mem, h.runtime_free⟩

theorem congr (h : σ.Ready options names) (hblock : τ.block = σ.block)
    (houter : τ.outer = σ.outer) : τ.Ready options names := by
  refine ⟨fun name hname => h.declared name (hblock ▸ hname), h.kindVar_mem, h.runtime_mem, ?_⟩
  rw [← h.runtime_free, lookup, lookup, hblock, houter]

/-- A new block declares nothing yet. -/
theorem enter (h : σ.Ready options names) : σ.enter.Ready options names :=
  ⟨fun _ hname => absurd rfl hname, h.kindVar_mem, h.runtime_mem, h.runtime_free⟩

theorem bind (h : σ.Ready options names) {name : String} (hname : name ∈ names.used)
    (hne : name ≠ options.runtime) (value : Value δ φ) :
    (σ.bind name value).Ready options names := by
  refine ⟨fun other hother => ?_, h.kindVar_mem, h.runtime_mem, ?_⟩
  · by_cases hsame : other = name
    · rwa [hsame]
    · refine h.declared other ?_
      simpa [State.bind, List.lookup_cons, beq_eq_false_iff_ne.mpr hsame] using hother
  · rw [lookup_bind_ne σ value hne.symm, h.runtime_free]

theorem bind_claim (h : σ.Ready options names) (base : String) (value : Value δ φ) :
    (σ.bind (names.claim base).1 value).Ready options (names.claim base).2 := by
  have hused := names.used_claim base
  refine (h.mono fun x hx => by simp [hused, hx]).bind (by simp [hused]) ?_ value
  intro heq
  exact names.claim_not_mem base (heq ▸ h.runtime_mem)

end Ready

namespace Extends

theorem trans (h : σ.Extends options names place τ) (k : τ.Extends options after place υ)
    (hnames : ∀ x ∈ names.used, x ∈ after.used) : σ.Extends options names place υ := by
  obtain ⟨value, hvalue⟩ := h.writes
  obtain ⟨next, hnext⟩ := k.writes
  refine ⟨fun name hname hne => ?_, next, hvalue.again hnext⟩
  rw [k.lookup_eq name (hnames name hname) hne, h.lookup_eq name hname hne]

theorem trans_below (h : σ.Extends options names place τ) {selector : Selector}
    (k : τ.Extends options after (place.sub selector) υ)
    (hnames : ∀ x ∈ names.used, x ∈ after.used) : σ.Extends options names place υ := by
  obtain ⟨value, hvalue⟩ := h.writes
  obtain ⟨part, hpart⟩ := k.writes
  refine ⟨fun name hname hne => ?_, hvalue.below hpart⟩
  rw [k.lookup_eq name (hnames name hname) hne, h.lookup_eq name hname hne]

theorem trans_fresh (h : σ.Extends options names place τ) {cell : Place}
    (hcell : σ.heap.length ≤ cell.cell) (k : τ.Extends options after cell υ)
    (hnames : ∀ x ∈ names.used, x ∈ after.used) : σ.Extends options names place υ := by
  obtain ⟨value, hvalue⟩ := h.writes
  obtain ⟨part, hpart⟩ := k.writes
  refine ⟨fun name hname hne => ?_, value, hvalue.fresh hcell hpart⟩
  rw [k.lookup_eq name (hnames name hname) hne, h.lookup_eq name hname hne]

end Extends

end State

namespace Machine

variable (M : Machine δ φ ω)

/-- The expression stands for a place in every state that extends the given one. -/
def Targets (options : Options) (names : Names) (scope place : Place) (target : Expr)
    (σ : State δ φ ω) : Prop :=
  ∀ τ, σ.Extends options names scope τ → M.place target τ = .ok (place, τ)

/-- The expression yields a dynamic value of the set in every state that extends the given one, and
changes nothing but the world. -/
def Sources (options : Options) (names : Names) (scope : Place) (source : Expr) (D : δ → Prop)
    (σ : State δ φ ω) : Prop :=
  ∀ τ, σ.Extends options names scope τ → ∃ d world, D d ∧
    M.eval source τ = .ok (.dynamic d, { τ with world := world })

/-- A run has put a native value for the layout into a place. -/
structure Fills (options : Options) (layout : Layout) (D : δ → Prop) (place : Place)
    (names after : Names) (σ τ : State δ φ ω) : Prop where
  outer_eq : τ.outer = σ.outer
  lookup_eq : ∀ name ∈ names.used, τ.lookup name = σ.lookup name
  ready : τ.Ready options after
  filled : ∃ t value, Heap.Writes place value σ.heap τ.heap ∧ M.Yields layout D t ∧
    t.Stored τ.heap σ.heap.length value

/-- The code for a layout fills every place that holds the zero value of the layout, from every
source that answers the questions of the layout. -/
def Conforms (options : Options) (layout : Layout) : Prop :=
  ∀ (base : String) (source target : Expr) (names : Names) (place : Place) (D : δ → Prop)
    (σ : State δ φ ω), σ.Ready options names → M.Targets options names place place target σ →
    M.Sources options names place source D σ → M.Readable layout D →
    σ.heap.read place = some (M.zero layout) →
    ∃ τ, M.Performs (layout.fill options base source target names).1 σ τ ∧
      M.Fills options layout D place names (layout.fill options base source target names).2 σ τ

variable {M} {options : Options} {names after : Names} {scope place inner : Place}
  {source target : Expr} {D : δ → Prop} {σ τ : State δ φ ω}

namespace Targets

theorem transport (h : M.Targets options names scope place target σ)
    (hext : ∀ υ, τ.Extends options after inner υ → σ.Extends options names scope υ) :
    M.Targets options after inner place target τ := fun υ hυ => h υ (hext υ hυ)

theorem deref {cell : Nat} (h : M.Targets options names ⟨cell, []⟩ place target σ)
    (hread : σ.heap.read place = some (.pointer (some cell))) (hne : cell ≠ place.cell) :
    M.Targets options names ⟨cell, []⟩ ⟨cell, []⟩ (.deref target) σ := by
  intro τ hτ
  obtain ⟨value, hvalue⟩ := hτ.writes
  have hkept := hvalue.getElem?_ne (Heap.cell_lt_of_read hread) hne
  exact place_deref (h τ hτ) (by rw [Heap.read_congr hkept, hread])

theorem field {name : String} {fields : List (Field (Value δ φ))} {old : Value δ φ}
    (h : M.Targets options names (place.sub (.field name)) place target σ)
    (hread : σ.heap.read place = some (.record fields))
    (hfield : Value.fieldValue? name fields = some old) :
    M.Targets options names (place.sub (.field name)) (place.sub (.field name))
      (.field target name) σ := by
  intro τ hτ
  obtain ⟨value, hvalue⟩ := hτ.writes
  have hselect : (Value.record fields).select (.field name) = some old := hfield
  exact place_field (h τ hτ) (Heap.Writes.read_above hread hselect hvalue)
    (Value.fieldValue?_setField hfield)

end Targets

namespace Sources

theorem transport (h : M.Sources options names scope source D σ)
    (hext : ∀ υ, τ.Extends options after inner υ → σ.Extends options names scope υ) :
    M.Sources options after inner source D τ := fun υ hυ => h υ (hext υ hυ)

theorem ask (h : M.Sources options names scope source D σ) {accessor : Accessor}
    {P : Value δ φ → Prop} (hanswered : M.Answered D accessor [] P)
    (hτ : σ.Extends options names scope τ) :
    ∃ answer world, M.eval (source.ask accessor) τ = .ok (answer, { τ with world := world }) ∧
      P answer ∧ M.Answers D accessor [] answer := by
  obtain ⟨d, world, hd, hsource⟩ := h τ hτ
  obtain ⟨answer, next, hask, hP, hanswer⟩ := hanswered.answers hd world
  exact ⟨answer, next, eval_ask hsource hask, hP, hanswer⟩

theorem property (h : M.Sources options names scope source D σ) {name : String}
    (hpart : M.HasPart D .get [.atom (.text name)]) :
    M.Sources options names scope (source.property name) (M.Property D name) σ := by
  intro τ hτ
  obtain ⟨d, world, hd, hsource⟩ := h τ hτ
  obtain ⟨answer, next, hask, ⟨part, rfl⟩, hanswer⟩ := hpart.answers hd world
  exact ⟨part, next, hanswer, eval_property hsource hask⟩

theorem element (h : M.Sources options names scope source D σ) {counter : String} {cell k : Nat}
    (hmem : counter ∈ names.used) (hkind : counter ≠ options.kindVar)
    (hlookup : σ.lookup counter = some cell) (hcell : σ.heap[cell]? = some (.atom (.int k)))
    (hne : scope.cell ≠ cell) (hpart : M.HasPart D .index [.atom (.int k)]) :
    M.Sources options names scope (source.element counter) (M.Elem D k) σ := by
  intro τ hτ
  obtain ⟨d, world, hd, hsource⟩ := h τ hτ
  obtain ⟨answer, next, hask, ⟨part, rfl⟩, hanswer⟩ := hpart.answers hd world
  obtain ⟨value, hvalue⟩ := hτ.writes
  have hkept := hvalue.getElem?_ne (List.getElem?_eq_some_iff.mp hcell).1 hne
  have hcounter : τ.lookup counter = some cell := by rw [hτ.lookup_eq _ hmem hkind, hlookup]
  exact ⟨part, next, hanswer,
    eval_element hsource hcounter (by rw [← hcell]; exact hkept) hask⟩

end Sources

/-! ## The forms of layouts -/

private theorem read_ne_make (type : Scalar) (source : Expr) (shape : Shape) (length : Expr) :
    type.read source ≠ .make shape length := by
  unfold Scalar.read
  cases type.cast? <;> simp [Expr.ask]

/-- A scalar is one assignment, so its source and its target are looked at only once. -/
theorem fill_scalar {declared : Shape} {type : Scalar} {d : δ} {world : ω} {old : Value δ φ}
    (base : String) (hready : σ.Ready options names) (htarget : M.place target σ = .ok (place, σ))
    (hd : D d) (hsource : M.eval source σ = .ok (.dynamic d, { σ with world := world }))
    (hanswered : M.Answered D type.access.accessor [] fun answer =>
      ∃ value, answer = .atom value ∧ value.access = type.access)
    (hold : σ.heap.read place = some old) :
    ∃ τ, M.Performs ((Layout.scalar declared type).fill options base source target names).1 σ τ ∧
      M.Fills options (.scalar declared type) D place names names σ τ := by
  obtain ⟨answer, next, hask, ⟨value, rfl, haccess⟩, hanswer⟩ := hanswered.answers hd world
  have hread := eval_read hsource hask haccess
  refine ⟨_, performs_assign htarget hread hold (read_ne_make type source), rfl,
    fun _ _ => rfl, hready.congr rfl rfl, ?_⟩
  exact ⟨_, _, .write σ.heap place _, .scalar hanswer, .atom _⟩

theorem conforms_scalar (declared : Shape) (type : Scalar) :
    M.Conforms options (.scalar declared type) := by
  intro base source target names place D σ hready htarget hsource hreadable hzero
  cases hreadable with
  | scalar hanswered =>
    have hself : σ.Extends options names place σ := ⟨fun _ _ _ => rfl, _, .refl hzero⟩
    obtain ⟨d, world, hd, heval⟩ := hsource σ hself
    exact fill_scalar base hready (htarget σ hself) hd heval hanswered hzero

/-- A pointee is filled in a new cell, in a block inside that of the guard. -/
theorem conforms_optional {declared : Shape} {pointee : Layout}
    (hne : options.kindVar ≠ options.runtime) (hunfold : M.types.Unfolds pointee.declared pointee)
    (ih : M.Conforms options pointee) : M.Conforms options (.optional declared pointee) := by
  intro base source target names place D σ hready htarget hsource hreadable hzero
  cases hreadable with
  | optional hkind hpointee =>
    have hself : Heap.Writes place (M.zero (.optional declared pointee)) σ.heap σ.heap :=
      .refl hzero
    have hopen : σ.Extends options names place σ.enter := ⟨fun _ _ _ => rfl, _, hself⟩
    obtain ⟨answer, world, heval, ⟨kind, rfl⟩, hanswer⟩ := hsource.ask hkind hopen
    let guard := ({ σ.enter with world := world }).bind options.kindVar (.kind kind)
    have hlookup : ∀ name, name ≠ options.kindVar → guard.lookup name = σ.lookup name :=
      fun name hname => State.lookup_bind_ne _ _ hname
    have hheader : M.Performs (some (.define options.kindVar (source.ask .type))).toList σ.enter
        guard := performs_define heval rfl (ask_ne_make source _)
    have hbound : guard.heap[σ.heap.length]? = some (.kind kind) := by
      simp [guard, State.bind, State.enter]
    have hcondition := eval_present (M := M) (State.lookup_bind_self _ _ _) hbound
      (by rw [hlookup _ hne.symm, hready.runtime_free])
    have hopened : ({ σ.enter with world := world } : State δ φ ω).Ready options names :=
      hready.enter.congr rfl rfl
    have hguard : guard.Ready options names := hopened.bind hready.kindVar_mem hne _
    have hclaims := Layout.fill_claims options pointee (base ++ "Elt") source (.deref target) names
    cases kind with
    | absent kind =>
      have hkept : guard.leave.Ready options names := hready.congr rfl rfl
      refine ⟨guard.leave, performs_branch_skipped hheader hcondition, rfl, fun _ _ => rfl,
        hkept.mono fun _ => hclaims.mem_of_mem, ?_⟩
      exact ⟨_, _, hself.allocate _, .absent hanswer, .absent⟩
    | present tag =>
      let opened := guard.enter
      let cell := opened.heap.length
      let made := (opened.allocate (M.zero pointee)).write place (.pointer (some cell))
      have hcell : σ.heap.length ≤ cell := by simp [cell, opened, guard, State.bind, State.enter]
      have hold : (opened.allocate (M.zero pointee)).heap.read place = some (.pointer none) :=
        ((hself.allocate _).allocate _).read_eq hzero
      have hassign : M.Performs [.assign target (.new pointee.declared)] opened made :=
        performs_assign (htarget opened ⟨fun name _ => hlookup name, _, hself.allocate _⟩)
          (eval_new (zero?_of_unfolds hunfold)) hold (by simp)
      have hmade : Heap.Writes place (.pointer (some cell)) σ.heap made.heap :=
        ((hself.allocate _).allocate _).again (.write _ _ _)
      have hmadeExtends : σ.Extends options names place made :=
        ⟨fun name _ => hlookup name, _, hmade⟩
      have hext : ∀ υ, made.Extends options names ⟨cell, []⟩ υ → σ.Extends options names place υ :=
        fun υ hυ => hmadeExtends.trans_fresh hcell hυ fun _ h => h
      have hplace := Heap.cell_lt_of_read hzero
      have hapart : place.cell ≠ cell := by omega
      have hnew : made.heap[cell]? = some (M.zero pointee) := by
        show ((opened.heap ++ [M.zero pointee]).write place _)[cell]? = _
        rw [Heap.getElem?_write_ne _ hapart]
        simp [cell]
      have hmadeReady : made.Ready options names := hguard.enter.congr rfl rfl
      obtain ⟨τ, hrun, hfills⟩ := ih (base ++ "Elt") source (.deref target) names ⟨cell, []⟩ D made
        hmadeReady (Targets.deref (htarget.transport hext) (hmade.read_eq hzero) hapart.symm)
        (hsource.transport hext) (hpointee tag hanswer) (by rw [Heap.read_cell, hnew])
      have hleave : τ.leave.leave = { σ with heap := τ.heap, world := τ.world } := by
        simp [State.leave, hfills.outer_eq, made, opened, guard, State.write, State.allocate,
          State.enter, State.bind]
      have hkept : τ.leave.leave.Ready options names :=
        hready.congr (by rw [hleave]) (by rw [hleave])
      have htaken := performs_branch_taken hheader hcondition (Performs.cons hassign hrun)
      rw [hleave] at hkept htaken
      obtain ⟨t, value, hwrites, hyields, hstored⟩ := hfills.filled
      have hgrown : σ.heap.length ≤ made.heap.length := hmade.length_le
      have hread : τ.heap[cell]? = some value := by
        rw [← Heap.read_cell]
        exact hwrites.read_eq (by rw [Heap.read_cell, hnew])
      refine ⟨_, htaken, rfl, fun _ _ => rfl,
        hkept.mono fun _ => hclaims.mem_of_mem, ?_⟩
      exact ⟨.pointer t, _, hmade.fresh hcell hwrites, .present hanswer hyields,
        .pointer hcell hread (hstored.mono hgrown)⟩

/-! ## Loops -/

/-- Native values that are stored as the elements of an array. -/
structure Elements (M : Machine δ φ ω) (elem : Layout) (D : δ → Prop) (heap : Heap δ φ) (low : Nat)
    (ts : List (Native φ)) (values : List (Value δ φ)) : Prop where
  length_eq : ts.length = values.length
  yields : ∀ i t, ts[i]? = some t → M.Yields elem (M.Elem D i) t
  stored : ∀ p ∈ ts.zip values, p.1.Stored heap low p.2

/-- What a loop over the `n` elements of an array finds: the target holds the array, or refers to
it, and the elements of the source answer what is asked of them. -/
structure LoopStart (M : Machine δ φ ω) (options : Options) (names : Names) (elem : Layout)
    (D : δ → Prop) (array holder : Place) (n : Nat) (source target bound : Expr)
    (σ : State δ φ ω) : Prop where
  ready : σ.Ready options names
  target : M.Targets options names array holder target σ
  element : ∀ τ values, σ.Extends options names array τ →
    τ.heap.read array = some (.array values) → ∀ i : Nat, i < values.length →
    τ.element holder (.atom (.int i)) = .ok (array.sub (.elem i))
  bound : ∀ τ, σ.Extends options names array τ → M.eval bound τ = .ok (.atom (.int n), τ)
  source : M.Sources options names array source D σ
  part : ∀ i < n, M.HasPart D .index [.atom (.int i)]
  readable : ∀ i < n, M.Readable elem (M.Elem D i)
  zero : σ.heap.read array = some (.array (List.replicate n (M.zero elem)))

/-- The state between two rounds of a loop over the elements of an array at `place`: `k` of `n`
elements are done, the rest is zero, and the counter is in the first new cell. -/
structure Round (M : Machine δ φ ω) (elem : Layout) (D : δ → Prop) (place : Place)
    (counter : String) (n : Nat) (σ : State δ φ ω) (k : Nat) (τ : State δ φ ω) : Prop where
  block_eq : τ.block = [(counter, σ.heap.length)]
  outer_eq : τ.outer = σ.block :: σ.outer
  counted : τ.heap[σ.heap.length]? = some (.atom (.int k))
  filled : ∃ ts values, values.length = k ∧
    Heap.Writes place (.array (values ++ List.replicate (n - k) (M.zero elem))) σ.heap τ.heap ∧
    Elements M elem D τ.heap (σ.heap.length + 1) ts values

namespace Elements

variable {elem : Layout} {heap grown : Heap δ φ} {low high : Nat} {ts : List (Native φ)}
  {values : List (Value δ φ)}

theorem nil : Elements M elem D heap low [] [] := ⟨rfl, by simp, by simp⟩

theorem snoc (h : Elements M elem D heap low ts values) {t : Native φ} {value : Value δ φ}
    (hyields : M.Yields elem (M.Elem D values.length) t) (hstored : t.Stored heap low value) :
    Elements M elem D heap low (ts ++ [t]) (values ++ [value]) := by
  refine ⟨by simp [h.length_eq], fun i u hu => ?_, fun p hp => ?_⟩
  · rw [List.getElem?_append] at hu
    split at hu
    · exact h.yields i u hu
    · next hge =>
      have hlast : i = values.length := by
        have hlt := (List.getElem?_eq_some_iff.mp hu).1
        simp only [List.length_singleton] at hlt
        have := h.length_eq
        omega
      rw [hlast, ← h.length_eq] at hu
      simp only [Nat.sub_self, List.getElem?_cons_zero, Option.some.injEq] at hu
      rw [hlast, ← hu]
      exact hyields
  · rw [List.zip_append h.length_eq] at hp
    rcases List.mem_append.mp hp with hp | hp
    · exact h.stored p hp
    · obtain rfl : p = (t, value) := by simpa using hp
      exact hstored

theorem congr (h : Elements M elem D heap low ts values)
    (hcells : ∀ c, low ≤ c → c < heap.length → grown[c]? = heap[c]?) :
    Elements M elem D grown low ts values :=
  ⟨h.length_eq, h.yields, fun p hp => (h.stored p hp).congr hcells⟩

theorem mono (h : Elements M elem D heap high ts values) (hle : low ≤ high) :
    Elements M elem D heap low ts values :=
  ⟨h.length_eq, h.yields, fun p hp => (h.stored p hp).mono hle⟩

end Elements

private theorem set_replicate {α : Type} {values : List α} {n : Nat} {zero value : α}
    (h : values.length < n) :
    (values ++ List.replicate (n - values.length) zero).set values.length value =
      (values ++ [value]) ++ List.replicate (n - (values.length + 1)) zero := by
  have hsplit : n - values.length = (n - (values.length + 1)) + 1 := by omega
  rw [hsplit, List.replicate_succ, List.set_append]
  simp

theorem round_step {elem : Layout} (ih : M.Conforms options elem) (base counterBase : String)
    {bound : Expr} {array holder : Place} {n k : Nat}
    (hloop : LoopStart M options names elem D array holder n source target bound σ) (hk : k < n)
    (h : Round M elem D array (names.claim counterBase).1 n σ k τ) :
    ∃ υ ρ, M.Performs (elem.fill options base (source.element (names.claim counterBase).1)
        (.index target (.ident (names.claim counterBase).1)) (names.claim counterBase).2).1
        τ.enter υ ∧
      M.increment (names.claim counterBase).1 υ.leave = .ok ρ ∧
      Round M elem D array (names.claim counterBase).1 n σ (k + 1) ρ := by
  obtain ⟨hready, htarget, helement, -, hsource, hpart, hreadable, hzero⟩ := hloop
  generalize hcounter : (names.claim counterBase).1 = counter at h ⊢
  generalize hclaimed : (names.claim counterBase).2 = claimed
  have hused : ∀ x, x ∈ claimed.used ↔ x = counter ∨ x ∈ names.used := by
    intro x
    rw [← hclaimed, names.used_claim, hcounter, List.mem_cons]
  have hnew : counter ∉ names.used := hcounter ▸ names.claim_not_mem counterBase
  have hkind : counter ≠ options.kindVar := fun heq => hnew (heq ▸ hready.kindVar_mem)
  obtain ⟨ts, values, hlength, hwrites, helements⟩ := h.filled
  have hplace := Heap.cell_lt_of_read hzero
  have hread := hwrites.read_eq hzero
  -- what is visible inside the loop is the counter, and what was visible before
  have hlookup : ∀ name, name ≠ counter → τ.lookup name = σ.lookup name := by
    intro name hname
    simp [State.lookup, h.block_eq, h.outer_eq, List.lookup_cons, beq_eq_false_iff_ne.mpr hname]
  have hown : τ.lookup counter = some σ.heap.length := by
    simp [State.lookup, h.block_eq]
  have hcellLt := (List.getElem?_eq_some_iff.mp h.counted).1
  have hinner : τ.enter.Ready options claimed := by
    have hruntime : options.runtime ≠ counter := fun heq => hnew (heq ▸ hready.runtime_mem)
    exact ⟨fun name hname => absurd rfl hname, (hused _).mpr (.inr hready.kindVar_mem),
      (hused _).mpr (.inr hready.runtime_mem), (hlookup _ hruntime).trans hready.runtime_free⟩
  have hself : σ.Extends options names array τ.enter :=
    ⟨fun name hname _ => hlookup name fun heq => hnew (heq ▸ hname), _, hwrites⟩
  have hext : ∀ υ, τ.enter.Extends options claimed (array.sub (.elem k)) υ →
      σ.Extends options names array υ :=
    fun υ hυ => hself.trans_below hυ fun x hx => (hused x).mpr (.inr hx)
  have hselect : (Value.array (values ++ List.replicate (n - k) (M.zero elem))).select (.elem k) =
      some (M.zero elem) := by
    have hpos : 0 < n - k := by omega
    simp [Value.select, hlength, hpos]
  have helem : M.Targets options claimed (array.sub (.elem k)) (array.sub (.elem k))
      (.index target (.ident counter)) τ.enter := by
    intro υ hυ
    obtain ⟨value, hvalue⟩ := hυ.writes
    have hkept : υ.heap[σ.heap.length]? = some (.atom (.int k)) :=
      (hvalue.getElem?_ne hcellLt (Nat.ne_of_lt hplace)).trans h.counted
    have hcount : υ.lookup counter = some σ.heap.length :=
      (hυ.lookup_eq _ ((hused _).mpr (.inl rfl)) hkind).trans hown
    refine place_index (htarget υ (hext υ hυ)) (eval_ident hcount hkept) ?_
    refine helement υ _ (hext υ hυ) (Heap.Writes.read_above hread hselect hvalue) k ?_
    simp only [List.length_set, List.length_append, List.length_replicate]
    omega
  obtain ⟨υ, hrun, hfills⟩ := ih base (source.element counter) (.index target (.ident counter))
    claimed (array.sub (.elem k)) (M.Elem D k) τ.enter hinner helem
    ((hsource.transport hext).element ((hused _).mpr (.inl rfl)) hkind hown h.counted
      (Nat.ne_of_lt hplace) (hpart k hk)) (hreadable k hk)
    (by rw [Heap.read_sub, show τ.enter.heap.read array = _ from hread]; exact hselect)
  have hleave := State.leave_of_outer hfills.outer_eq
  obtain ⟨t, value, hvalue, hyields, hstored⟩ := hfills.filled
  have hkept : υ.heap[σ.heap.length]? = some (.atom (.int k)) :=
    (hvalue.getElem?_ne hcellLt (Nat.ne_of_lt hplace)).trans h.counted
  refine ⟨υ, _, hrun, increment_eq (by rw [hleave]; exact hown) (by rw [hleave]; exact hkept), ?_⟩
  rw [hleave]
  refine ⟨h.block_eq, h.outer_eq, ?_, ts ++ [t], values ++ [value], by simp [hlength], ?_, ?_⟩
  · simp [State.write, Heap.write, hkept, Value.put]
  · have hnext := (hwrites.part hzero hselect hvalue).fresh (Nat.le_refl _)
      (.write υ.heap ⟨σ.heap.length, []⟩ (.atom (.int (k + 1 : Nat))))
    rw [Value.replace, ← hlength, set_replicate (by omega), hlength] at hnext
    exact hnext
  · have hcells : ∀ c, σ.heap.length + 1 ≤ c → c < υ.heap.length →
        (υ.heap.write ⟨σ.heap.length, []⟩ (.atom (.int (k + 1 : Nat))))[c]? = υ.heap[c]? :=
      fun c hlow _ => Heap.getElem?_write_ne _ (by show σ.heap.length ≠ c; omega)
    have hgrown := hvalue.length_le
    refine Elements.snoc ?_ (hlength ▸ hyields) ?_
    · refine (helements.congr fun c hlow hlt => ?_)
      have hbefore : υ.heap[c]? = τ.heap[c]? :=
        hvalue.getElem?_ne hlt (by show array.cell ≠ c; omega)
      exact (hcells c hlow (Nat.lt_of_lt_of_le hlt hgrown)).trans hbefore
    · exact (hstored.mono hcellLt).congr hcells

theorem loop_fills {elem : Layout} (ih : M.Conforms options elem) (base counterBase : String)
    {bound : Expr} {array holder : Place} {n : Nat}
    (hloop : LoopStart M options names elem D array holder n source target bound σ) :
    ∃ heap world ts values,
      M.Performs [.loop (names.claim counterBase).1 bound
          (elem.fill options base (source.element (names.claim counterBase).1)
            (.index target (.ident (names.claim counterBase).1)) (names.claim counterBase).2).1]
        σ { σ with heap := heap, world := world } ∧
      (∀ κ, M.Tests (names.claim counterBase).1 bound
          (elem.fill options base (source.element (names.claim counterBase).1)
            (.index target (.ident (names.claim counterBase).1)) (names.claim counterBase).2).1
          (σ.enter.bind (names.claim counterBase).1 (.atom (.int 0))) κ →
        M.eval bound κ = .ok (.atom (.int n), κ)) ∧
      values.length = n ∧ Heap.Writes array (.array values) σ.heap heap ∧
      Elements M elem D heap σ.heap.length ts values := by
  have hnew := names.claim_not_mem counterBase
  have hself := Heap.Writes.refl hloop.zero
  have hplace := Heap.cell_lt_of_read hloop.zero
  let first := σ.enter.bind (names.claim counterBase).1 (.atom (.int 0))
  have hfirst : Round M elem D array (names.claim counterBase).1 n σ 0 first :=
    ⟨rfl, rfl, by simp [first, State.bind, State.enter], [], [], rfl, hself.allocate _, .nil⟩
  have hbound : ∀ k τ, Round M elem D array (names.claim counterBase).1 n σ k τ →
      M.eval bound τ = .ok (.atom (.int n), τ) := by
    intro k τ h
    obtain ⟨_, _, _, hwrites, _⟩ := h.filled
    refine hloop.bound τ ⟨fun name hname _ => ?_, _, hwrites⟩
    have hne : name ≠ (names.claim counterBase).1 := fun heq => hnew (heq ▸ hname)
    simp [State.lookup, h.block_eq, h.outer_eq, List.lookup_cons, beq_eq_false_iff_ne.mpr hne]
  have htest : ∀ k τ, Round M elem D array (names.claim counterBase).1 n σ k τ →
      M.eval (.binary .lt (.ident (names.claim counterBase).1) bound) τ =
        .ok (.atom (.bool (decide (k < n))), τ) :=
    fun k τ h => eval_counter_lt (by simp [State.lookup, h.block_eq]) h.counted (hbound k τ h)
  have hround := fun k (hk : k < n) τ
    (h : Round M elem D array (names.claim counterBase).1 n σ k τ) =>
      round_step ih base counterBase hloop hk h
  obtain ⟨τ, hperforms, hlast⟩ := performs_loop htest hround hfirst
  obtain ⟨ts, values, hlength, hwrites, helements⟩ := hlast.filled
  rw [State.leave_of_outer hlast.outer_eq] at hperforms
  simp only [Nat.sub_self, List.replicate_zero, List.append_nil] at hwrites
  refine ⟨τ.heap, τ.world, ts, values, hperforms, fun κ htests => ?_, hlength, hwrites,
    helements.mono (by omega)⟩
  obtain ⟨k, hk⟩ := htests.invariant htest hround hfirst
  exact hbound k κ hk

theorem conforms_array {declared : Shape} {elem : Layout} {length : UInt64}
    (ih : M.Conforms options elem) :
    M.Conforms options (.sequence declared elem (.fixed length)) := by
  intro base source target names place D σ hready htarget hsource hreadable hzero
  cases hreadable with
  | array hpart helem =>
    have hloop : LoopStart M options names elem D place place length.toNat source target
        (.int length.toNat) σ := by
      exact ⟨hready, htarget, fun τ values _ hread i hi => State.element_array hread hi,
        fun τ _ => by simp [eval], hsource, hpart, helem, hzero⟩
    obtain ⟨heap, world, ts, values, hloops, -, hlength, hwrites, helements⟩ :=
      loop_fills ih (base ++ "Elt") (base ++ "Idx") hloop
    have hclaims := Layout.fill_claims options (.sequence declared elem (.fixed length)) base
      source target names
    have hkept : ({ σ with heap := heap, world := world } : State δ φ ω).Ready options names :=
      hready.congr rfl rfl
    refine ⟨_, hloops, rfl, fun _ _ => rfl,
      hkept.mono fun _ => hclaims.mem_of_mem, .array ts, .array values, hwrites, ?_,
      .array helements.length_eq helements.stored⟩
    exact .array (by rw [helements.length_eq, hlength]) helements.yields

/-- A slice whose length is in a local, and whose elements are zero, is ready to be filled. -/
theorem loopStart_slice {elem : Layout} {length : String} {cell lengthCell n : Nat}
    (hready : σ.Ready options names) (hmem : length ∈ names.used)
    (hkind : length ≠ options.kindVar) (hlookup : σ.lookup length = some lengthCell)
    (hlength : σ.heap[lengthCell]? = some (.atom (.int n)))
    (hholder : σ.heap.read place = some (.slice (some cell)))
    (hcell : σ.heap[cell]? = some (.array (List.replicate n (M.zero elem))))
    (hapart : cell ≠ place.cell ∧ cell ≠ lengthCell)
    (htarget : M.Targets options names ⟨cell, []⟩ place target σ)
    (hsource : M.Sources options names ⟨cell, []⟩ source D σ)
    (hpart : ∀ i < n, M.HasPart D .index [.atom (.int i)])
    (hreadable : ∀ i < n, M.Readable elem (M.Elem D i)) :
    LoopStart M options names elem D ⟨cell, []⟩ place n source target (.ident length) σ := by
  refine ⟨hready, htarget, fun τ values hτ hread i hi => ?_, fun τ hτ => ?_, hsource, hpart,
    hreadable, by rw [Heap.read_cell, hcell]⟩
  · obtain ⟨value, hvalue⟩ := hτ.writes
    have hkept : τ.heap.read place = some (.slice (some cell)) := by
      rw [Heap.read_congr (hvalue.getElem?_ne (Heap.cell_lt_of_read hholder) hapart.1), hholder]
    exact State.element_slice hkept hread hi
  · obtain ⟨value, hvalue⟩ := hτ.writes
    have hown : τ.lookup length = some lengthCell := (hτ.lookup_eq _ hmem hkind).trans hlookup
    refine eval_ident hown ((hvalue.getElem?_ne ?_ hapart.2).trans hlength)
    exact (List.getElem?_eq_some_iff.mp hlength).1

/-- A slice is made with the length that the source answers, and filled in its new cell. -/
theorem conforms_slice {declared : Shape} {elem : Layout}
    (hunfold : M.types.Unfolds declared (.sequence declared elem .dynamic))
    (ih : M.Conforms options elem) :
    M.Conforms options (.sequence declared elem .dynamic) := by
  intro base source target names place D σ hready htarget hsource hreadable hzero
  cases hreadable with
  | slice hlength hpart helem =>
    have hself := Heap.Writes.refl hzero
    have hplace := Heap.cell_lt_of_read hzero
    obtain ⟨answer, world, heval, ⟨n, rfl⟩, hanswer⟩ :=
      hsource.ask hlength ⟨fun _ _ _ => rfl, _, hself⟩
    have hused := names.used_claim (base ++ "Len")
    have hnew := names.claim_not_mem (base ++ "Len")
    have hmeasuredReady := hready.bind_claim (base ++ "Len") (.atom (.int n))
    generalize hname : (names.claim (base ++ "Len")).1 = length at hused hnew hmeasuredReady
    generalize hclaimed : (names.claim (base ++ "Len")).2 = claimed at hused hmeasuredReady
    let measured := ({ σ with world := world } : State δ φ ω).bind length (.atom (.int n))
    let cell := measured.heap.length
    let made := (measured.allocate (.array (List.replicate n (M.zero elem)))).write place
      (.slice (some cell))
    have hcell : σ.heap.length < cell := by simp [cell, measured, State.bind]
    have hkept : ∀ x ∈ names.used, measured.lookup x = σ.lookup x :=
      fun x hx => State.lookup_bind_ne _ _ fun heq => hnew (heq ▸ hx)
    have hdefine : M.Performs [.define length (source.ask .length)] σ measured :=
      performs_define heval (hready.fresh hnew) (ask_ne_make source _)
    have hmeasured : σ.Extends options names place measured :=
      ⟨fun x hx _ => hkept x hx, _, hself.allocate _⟩
    have hlocal : measured.heap[σ.heap.length]? = some (.atom (.int n)) := by
      simp [measured, State.bind]
    have hcount := eval_ident (M := M) (State.lookup_bind_self _ _ _) hlocal
    have hmakes : M.Makes (.assign target (.make declared (.ident length))) n measured made :=
      .assign (htarget measured hmeasured) hcount <|
        steps_assign (htarget measured hmeasured)
          (eval_make (elemZero?_of_unfolds hunfold) hcount)
          (((hself.allocate _).allocate _).read_eq hzero)
    have hmade : Heap.Writes place (.slice (some cell)) σ.heap made.heap :=
      ((hself.allocate _).allocate _).again (.write _ _ _)
    have hmadeExtends : σ.Extends options names place made := ⟨fun x hx _ => hkept x hx, _, hmade⟩
    have hext : ∀ υ, made.Extends options claimed ⟨cell, []⟩ υ →
        σ.Extends options names place υ :=
      fun υ hυ => hmadeExtends.trans_fresh (Nat.le_of_lt hcell) hυ
        fun x hx => by simp [hused, hx]
    have hmadeCell (c : Nat) (hc : place.cell ≠ c) : made.heap[c]? =
        (measured.heap ++ [.array (List.replicate n (M.zero elem))])[c]? :=
      Heap.getElem?_write_ne _ hc
    have hmadeReady : made.Ready options claimed := hmeasuredReady.congr rfl rfl
    have hkind : length ≠ options.kindVar := fun heq => hnew (heq ▸ hready.kindVar_mem)
    have hown : made.lookup length = some σ.heap.length :=
      State.lookup_bind_self { σ with world := world } length (.atom (.int n))
    have hmadeLength : made.heap[σ.heap.length]? = some (.atom (.int n)) := by
      rw [hmadeCell _ (by omega)]
      simp [measured, State.bind]
    have hmadeArray : made.heap[cell]? = some (.array (List.replicate n (M.zero elem))) := by
      rw [hmadeCell _ (by omega)]
      simp [cell]
    have hloop := loopStart_slice hmadeReady (by simp [hused]) hkind hown hmadeLength
      (hmade.read_eq hzero) hmadeArray (by omega) (htarget.transport hext)
      (hsource.transport hext) (hpart n hanswer) (helem n hanswer)
    obtain ⟨heap, next, ts, values, hloops, htests, hsize, hwrites, helements⟩ :=
      loop_fills ih (base ++ "Elt") (base ++ "Idx") hloop
    have harray : heap[cell]? = some (.array values) := by
      rw [← Heap.read_cell]
      exact hwrites.read_eq (by rw [Heap.read_cell, hmadeArray])
    have hlast : ({ made with heap := heap, world := next } : State δ φ ω).Ready options claimed :=
      hmadeReady.congr rfl rfl
    have hclaims := (Layout.fill_claims options elem (base ++ "Elt")
      (source.element (claimed.claim (base ++ "Idx")).1)
      (.index target (.ident (claimed.claim (base ++ "Idx")).1))
      (claimed.claim (base ++ "Idx")).2).claim_then
    have hgrown := hmade.length_le
    simp only [Layout.fill, hname, hclaimed]
    refine ⟨_, Performs.cons hdefine (performs_make hmakes hloops htests), rfl, hkept,
      hlast.mono fun _ => hclaims.mem_of_mem, .slice ts, .slice (some cell),
      hmade.fresh (Nat.le_of_lt hcell) hwrites, .slice ?_ helements.yields, ?_⟩
    · rw [helements.length_eq, hsize]
      exact hanswer
    · exact .slice (Nat.le_of_lt hcell) harray helements.length_eq
        fun p hp => (helements.stored p hp).mono hgrown

/-! ## Records -/

/-- The fields of a record are filled in order, after those that are `done`. -/
private theorem fillFields_fills {fields : List (Field Layout)}
    (ih : ∀ f ∈ fields, M.Conforms options f.type) (hdistinct : (fields.map Field.name).Nodup)
    {base : String} (done : List (Field (Value δ φ)))
    (hapart : ∀ f ∈ fields, f.name ∉ done.map Field.name) (hready : σ.Ready options names)
    (htarget : M.Targets options names place place target σ)
    (hsource : M.Sources options names place source D σ)
    (hpart : ∀ f ∈ fields, M.HasPart D .get [.atom (.text f.name)])
    (hreadable : ∀ f ∈ fields, M.Readable f.type (M.Property D f.name))
    (hzero : σ.heap.read place = some (.record (done ++ M.zeros fields))) :
    ∃ τ ts values, M.Performs (Layout.fillFields options base source target fields names).1 σ τ ∧
      τ.outer = σ.outer ∧ (∀ name ∈ names.used, τ.lookup name = σ.lookup name) ∧
      τ.Ready options (Layout.fillFields options base source target fields names).2 ∧
      Heap.Writes place (.record (done ++ values)) σ.heap τ.heap ∧
      (fields.map Field.name = ts.map Field.name ∧
        ∀ p ∈ fields.zip ts, M.Yields p.1.type (M.Property D p.1.name) p.2.type) ∧
      ts.map Field.name = values.map Field.name ∧
        ∀ p ∈ ts.zip values, p.1.type.Stored τ.heap σ.heap.length p.2.type := by
  have hplace := Heap.cell_lt_of_read hzero
  have hself := Heap.Writes.refl hzero
  induction fields generalizing names done σ with
  | nil => exact ⟨σ, [], [], .nil, rfl, fun _ _ => rfl, hready, hself, by simp, by simp⟩
  | cons f fields ihFields =>
    obtain ⟨name, type⟩ := f
    obtain ⟨hname, hrest⟩ := List.nodup_cons.mp hdistinct
    have hnew : name ∉ done.map Field.name := hapart ⟨name, type⟩ (by simp)
    have hfield := Value.fieldValue?_append hnew (M.zero type) (M.zeros fields)
    have hselect : (Value.record (done ++ ⟨name, M.zero type⟩ :: M.zeros fields)).select
        (.field name) = some (M.zero type) := hfield
    have hselfExtends : σ.Extends options names place σ := ⟨fun _ _ _ => rfl, _, hself⟩
    have hext : ∀ υ, σ.Extends options names (place.sub (.field name)) υ →
        σ.Extends options names place υ :=
      fun υ hυ => hselfExtends.trans_below hυ fun _ h => h
    obtain ⟨τ, hrun, hfills⟩ := ih ⟨name, type⟩ (by simp) (base ++ name) (source.property name)
      (.field target name) names (place.sub (.field name)) (M.Property D name) σ hready
      ((htarget.transport hext).field hzero hfield)
      ((hsource.transport hext).property (hpart ⟨name, type⟩ (by simp)))
      (hreadable ⟨name, type⟩ (by simp)) (by rw [Heap.read_sub, hzero]; exact hselect)
    obtain ⟨t, value, hvalue, hyields, hstored⟩ := hfills.filled
    have hclaims := type.fill_claims options (base ++ name) (source.property name)
      (.field target name) names
    have hfirst : Heap.Writes place (.record ((done ++ [⟨name, value⟩]) ++ M.zeros fields))
        σ.heap τ.heap := by
      have hwhole := hself.part hzero hselect hvalue
      rw [Value.replace, zeros, Value.setField_append hnew] at hwhole
      simpa using hwhole
    have hafter : ∀ υ, τ.Extends options _ place υ → σ.Extends options names place υ :=
      fun υ hυ => State.Extends.trans ⟨fun x hx _ => hfills.lookup_eq x hx, _, hfirst⟩ hυ
        fun _ => hclaims.mem_of_mem
    have hgrown := hfirst.length_le
    obtain ⟨υ, ts, values, hrunRest, houter, hlookup, hreadyRest, hwrites, ⟨hnames, hyieldsRest⟩,
      hvalues, hstoredRest⟩ := ihFields (fun f hf => ih f (by simp [hf])) hrest
        (done ++ [⟨name, value⟩])
        (fun f hf => by
          have hother := hapart f (by simp [hf])
          have hne : f.name ≠ name := fun heq => hname (List.mem_map.mpr ⟨f, hf, heq⟩)
          simpa [hne] using hother)
        hfills.ready (htarget.transport hafter) (hsource.transport hafter)
        (fun f hf => hpart f (by simp [hf])) (fun f hf => hreadable f (by simp [hf]))
        (hfirst.read_eq hzero) (Nat.lt_of_lt_of_le hplace hgrown)
        (.refl (hfirst.read_eq hzero))
    refine ⟨υ, ⟨name, t⟩ :: ts, ⟨name, value⟩ :: values, hrun.append hrunRest,
      houter.trans hfills.outer_eq, fun x hx => ?_, hreadyRest, ?_, ⟨by simp [hnames], ?_⟩,
      by simp [hvalues], ?_⟩
    · rw [hlookup x (hclaims.mem_of_mem hx), hfills.lookup_eq x hx]
    · simpa using hfirst.again hwrites
    · intro p hp
      rcases List.mem_cons.mp hp with rfl | hp
      · exact hyields
      · exact hyieldsRest p hp
    · intro p hp
      rcases List.mem_cons.mp hp with rfl | hp
      · exact hstored.writes hplace hwrites
      · exact (hstoredRest p hp).mono hgrown

theorem conforms_record {declared : Shape} {fields : List (Field Layout)}
    (hdistinct : (fields.map Field.name).Nodup) (ih : ∀ f ∈ fields, M.Conforms options f.type) :
    M.Conforms options (.record declared fields) := by
  intro base source target names place D σ hready htarget hsource hreadable hzero
  cases hreadable with
  | record hpart hfields =>
    obtain ⟨τ, ts, values, hrun, houter, hlookup, hlast, hwrites, ⟨hnames, hyields⟩, hvalues,
      hstored⟩ := fillFields_fills ih hdistinct [] (by simp) hready htarget hsource
        hpart hfields hzero
    exact ⟨τ, hrun, houter, hlookup, hlast, .record ts, .record values, hwrites,
      .record hnames hyields, .record hvalues hstored⟩

/-- Code for a layout whose records have distinct field names fills every place that is ready for
it. -/
theorem conforms (hne : options.kindVar ≠ options.runtime) {layout : Layout}
    (hdistinct : layout.EveryRecord List.Nodup)
    (hunfold : M.types.Unfolds layout.declared layout) : M.Conforms options layout := by
  induction layout using Layout.induction with
  | scalar declared type => exact conforms_scalar declared type
  | optional declared pointee ih =>
    have hpart := hunfold.part pointee (by simp [Layout.parts])
    exact conforms_optional hne hpart (ih hdistinct hpart)
  | sequence declared elem extent ih =>
    have hpart := hunfold.part elem (by simp [Layout.parts])
    cases extent with
    | fixed length => exact conforms_array (ih hdistinct hpart)
    | dynamic => exact conforms_slice hunfold (ih hdistinct hpart)
  | record declared fields ih =>
    refine conforms_record hdistinct.1 fun f hf => ?_
    have hpart := hunfold.part f.type (by simpa [Layout.parts] using ⟨f, hf, rfl⟩)
    exact ih f hf (Layout.everyRecordOfFields_iff.mp hdistinct.2 f hf) hpart

end Machine

end Unmarshal
