import Unmarshal.Proofs.Execution.Machine
import Unmarshal.Proofs.Visibility

/-!
# What an expression reads

An expression reads the locals that it mentions and what can be reached from them. As long as it
allocates nothing, it has the same value in every state that shows the same there.
-/
namespace Unmarshal

namespace Expr

mutual

/-- The packages from which an expression takes constants. -/
def packages : Expr → List String
  | .ident _ | .int _ | .str _ | .new _ | .composite _ => []
  | .access value _ args => packages value ++ allPackages args
  | .call callee args => packages callee ++ allPackages args
  | .cast _ value => packages value
  | .field base _ => packages base
  | .index base position => packages base ++ packages position
  | .deref pointer => packages pointer
  | .not operand => packages operand
  | .binary _ left right => packages left ++ packages right
  | .absent package _ => [package]
  | .make _ length => packages length

def allPackages : List Expr → List String
  | [] => []
  | e :: es => packages e ++ allPackages es

end

/-- The names that are looked up to evaluate an expression: locals, and packages, which no local may
hide. -/
def mentioned (e : Expr) : List String := e.idents ++ e.packages

end Expr

variable {δ φ ω α β : Type}

namespace State

variable {σ : State δ φ ω} {p q : Place}

theorem pointee_eq_ok_iff :
    σ.pointee q = .ok p ↔ ∃ cell, σ.heap.read q = some (.pointer (some cell)) ∧ p = ⟨cell, []⟩ := by
  unfold pointee
  constructor
  · intro h
    split at h
    · next cell hread =>
      cases h
      exact ⟨cell, hread, rfl⟩
    · cases h
    · cases h
  · rintro ⟨cell, hread, rfl⟩
    rw [hread]

private theorem mem_map_name_iff {name : String} {fields : List (Field (Value δ φ))} :
    name ∈ fields.map Field.name ↔ ∃ value, Value.fieldValue? name fields = some value := by
  induction fields with
  | nil => simp [Value.fieldValue?]
  | cons f fields ih =>
    obtain ⟨other, own⟩ := f
    by_cases hname : other = name
    · simp [Value.fieldValue?, hname]
    · simp [Value.fieldValue?, hname, Ne.symm hname, ih]

theorem member_eq_ok_iff {name : String} :
    σ.member q name = .ok p ↔
      ∃ fields, σ.heap.read q = some (.record fields) ∧ name ∈ fields.map Field.name ∧
        p = q.sub (.field name) := by
  simp only [mem_map_name_iff]
  unfold member
  constructor
  · intro h
    split at h
    · next fields hread =>
      split at h
      · next value hvalue =>
        cases h
        exact ⟨fields, hread, ⟨value, hvalue⟩, rfl⟩
      · cases h
    · cases h
  · rintro ⟨fields, hread, ⟨value, hvalue⟩, rfl⟩
    rw [hread]
    simp only [hvalue]

/-- An element is a part of the place itself, or of the cell that a slice at the place refers to. -/
theorem element_eq_ok_iff {position : Value δ φ} :
    σ.element q position = .ok p ↔
      ∃ (i : Nat) (elems : List (Value δ φ)) (array : Place), position = .atom (.int i) ∧
        (array = q ∨ ∃ cell, σ.heap.read q = some (.slice (some cell)) ∧ array = ⟨cell, []⟩) ∧
        σ.heap.read array = some (.array elems) ∧ i < elems.length ∧ p = array.sub (.elem i) := by
  constructor
  · intro h
    unfold element at h
    split at h
    · next i =>
      have hcast {n : Nat} (hi : 0 ≤ i ∧ i.toNat < n) :
          (.atom (.int i) : Value δ φ) = .atom (.int (i.toNat : Nat)) := by
        rw [Int.toNat_of_nonneg hi.1]
      split at h
      · next elems hread =>
        split at h
        · next hi =>
          cases h
          exact ⟨i.toNat, elems, q, hcast hi, .inl rfl, hread, hi.2, rfl⟩
        · cases h
      · cases h
      · next cell hslice =>
        split at h
        · next elems hread =>
          split at h
          · next hi =>
            cases h
            exact ⟨i.toNat, elems, _, hcast hi, .inr ⟨cell, hslice, rfl⟩, hread, hi.2, rfl⟩
          · cases h
        · cases h
      · cases h
    · cases h
  · rintro ⟨i, elems, array, rfl, rfl | ⟨cell, hslice, rfl⟩, hread, hi, rfl⟩
    · exact element_array hread hi
    · exact element_slice hslice hread hi

end State

/-- The second state shows what the first one shows through some names: they stand for the same
cells, and in a set of cells that has these and all that its cells refer to, the same is read. -/
structure State.Shows (names : List String) (R : Nat → Prop) (σ τ : State δ φ ω) : Prop where
  world_eq : τ.world = σ.world
  lookup_eq : ∀ x ∈ names, τ.lookup x = σ.lookup x
  mem_of_lookup : ∀ x ∈ names, ∀ cell, σ.lookup x = some cell → R cell
  read_eq : ∀ q value, R q.cell → σ.heap.read q = some value → τ.heap.read q = some value
  mem_of_refers : ∀ q cell, R q.cell → σ.heap.read q = some (.pointer (some cell)) ∨
    σ.heap.read q = some (.slice (some cell)) → R cell

namespace State.Shows

variable {names : List String} {R : Nat → Prop} {σ τ : State δ φ ω} {q r : Place}

theorem load (h : Shows names R σ τ) (hq : R q.cell) {value : Value δ φ}
    (hload : σ.load q = .ok value) : τ.load q = .ok value := by
  unfold State.load at hload ⊢
  split at hload
  · next found hread =>
    cases hload
    rw [h.read_eq q value hq hread]
  · cases hload

theorem pointee (h : Shows names R σ τ) (hq : R q.cell) (hr : σ.pointee q = .ok r) :
    R r.cell ∧ τ.pointee q = .ok r := by
  obtain ⟨cell, hread, rfl⟩ := pointee_eq_ok_iff.mp hr
  refine ⟨h.mem_of_refers q cell hq (.inl hread), ?_⟩
  exact pointee_eq_ok_iff.mpr ⟨cell, h.read_eq q _ hq hread, rfl⟩

theorem member (h : Shows names R σ τ) (hq : R q.cell) {name : String}
    (hr : σ.member q name = .ok r) : R r.cell ∧ τ.member q name = .ok r := by
  obtain ⟨fields, hread, hname, rfl⟩ := member_eq_ok_iff.mp hr
  exact ⟨hq, member_eq_ok_iff.mpr ⟨fields, h.read_eq q _ hq hread, hname, rfl⟩⟩

theorem element (h : Shows names R σ τ) (hq : R q.cell) {position : Value δ φ}
    (hr : σ.element q position = .ok r) : R r.cell ∧ τ.element q position = .ok r := by
  obtain ⟨i, elems, array, hposition, harray, hread, hi, rfl⟩ := element_eq_ok_iff.mp hr
  have hcell : R array.cell := by
    rcases harray with rfl | ⟨cell, hslice, rfl⟩
    · exact hq
    · exact h.mem_of_refers q cell hq (.inr hslice)
  refine ⟨hcell, element_eq_ok_iff.mpr
    ⟨i, elems, array, hposition, ?_, h.read_eq array _ hcell hread, hi, rfl⟩⟩
  exact harray.imp_right fun ⟨cell, hslice, heq⟩ => ⟨cell, h.read_eq q _ hq hslice, heq⟩

end State.Shows

namespace Machine

/-- A computation from the first state adds cells only. Where it adds none, it changes nothing but
the world, and the computation from the second state has the same result. -/
structure Repeats (names : List String) (R : Nat → Prop) (given : Prop) (σ τ : State δ φ ω)
    (first second : Except Trap (α × State δ φ ω)) (P : α → Prop) : Prop where
  grows : ∀ a υ, first = .ok (a, υ) → σ.heap.length ≤ υ.heap.length
  same : given → σ.Shows names R τ → ∀ a υ, first = .ok (a, υ) → υ.heap.length ≤ σ.heap.length →
    P a ∧ υ = { σ with world := υ.world } ∧ second = .ok (a, { τ with world := υ.world })

namespace Repeats

variable {names : List String} {R : Nat → Prop} {given : Prop} {σ τ : State δ φ ω}
  {first second : Except Trap (α × State δ φ ω)} {P : α → Prop} {Q : β → Prop}

theorem error (trap : Trap) (second : Except Trap (α × State δ φ ω)) :
    Repeats names R given σ τ (.error trap) second P :=
  ⟨nofun, fun _ _ => nofun⟩

theorem allocate (a : α) (value : Value δ φ) (second : Except Trap (α × State δ φ ω)) :
    Repeats names R given σ τ (.ok (a, σ.allocate value)) second P := by
  constructor
  · rintro _ _ ⟨⟩
    simp [State.allocate]
  · rintro _ _ _ _ ⟨⟩ hle
    simp only [State.allocate, List.length_append, List.length_singleton] at hle
    omega

theorem result {a : α} (h : given → P a) :
    Repeats names R given σ τ (.ok (a, σ)) (.ok (a, τ)) P := by
  constructor
  · rintro _ _ ⟨⟩
    exact Nat.le_refl _
  · rintro hgiven hshows _ _ ⟨⟩ _
    refine ⟨h hgiven, rfl, ?_⟩
    rw [← hshows.world_eq]

/-- A computation that begins by looking at its state. -/
theorem look {f : State δ φ ω → Except Trap α} {next later : α → Except Trap (β × State δ φ ω)}
    (h : given → σ.Shows names R τ → ∀ a, f σ = .ok a → P a ∧ f τ = .ok a)
    (hnext : ∀ a, Repeats names R (P a) σ τ (next a) (later a) Q) :
    Repeats names R given σ τ (f σ >>= next) (f τ >>= later) Q := by
  constructor
  · intro b υ hok
    obtain ⟨a, -, hok⟩ := bind_eq_ok_iff.mp hok
    exact (hnext a).grows b υ hok
  · intro hgiven hshows b υ hok hle
    obtain ⟨a, hf, hok⟩ := bind_eq_ok_iff.mp hok
    obtain ⟨hP, hτ⟩ := h hgiven hshows a hf
    rw [hτ]
    exact (hnext a).same hP hshows b υ hok hle

theorem bind {next later : α × State δ φ ω → Except Trap (β × State δ φ ω)}
    (h : Repeats names R given σ τ first second P)
    (hnext : ∀ a σ' τ', Repeats names R (P a) σ' τ' (next (a, σ')) (later (a, τ')) Q) :
    Repeats names R given σ τ (first >>= next) (second >>= later) Q := by
  constructor
  · intro b υ hok
    obtain ⟨⟨a, σ'⟩, hfirst, hok⟩ := bind_eq_ok_iff.mp hok
    exact Nat.le_trans (h.grows a σ' hfirst) ((hnext a σ' τ).grows b υ hok)
  · intro hgiven hshows b υ hok hle
    obtain ⟨⟨a, σ'⟩, hfirst, hok⟩ := bind_eq_ok_iff.mp hok
    have hgrown : σ'.heap.length ≤ υ.heap.length := (hnext a σ' τ).grows b υ hok
    obtain ⟨hP, hσ', hsecond⟩ := h.same hgiven hshows a σ' hfirst (Nat.le_trans hgrown hle)
    have hshows' : σ'.Shows names R { τ with world := σ'.world } := by
      rw [hσ']
      exact ⟨rfl, hshows.lookup_eq, hshows.mem_of_lookup, hshows.read_eq, hshows.mem_of_refers⟩
    have hle' : υ.heap.length ≤ σ'.heap.length := by
      rw [hσ']
      exact hle
    obtain ⟨hQ, hυ, hlater⟩ := (hnext a σ' _).same hP hshows' b υ hok hle'
    refine ⟨hQ, ?_, ?_⟩
    · rw [hυ, hσ']
    · rw [hsecond]
      exact hlater

end Repeats

/-- Every name that the expression mentions is one of the given ones. -/
private def Knows (names : List String) (e : Expr) : Prop :=
  (∀ x ∈ e.idents, x ∈ names) ∧ ∀ x ∈ e.packages, x ∈ names

variable {M : Machine δ φ ω} {names : List String} {R : Nat → Prop}

private theorem evalAll_repeats {es : List Expr}
    (ih : ∀ e ∈ es, Knows names e → ∀ given σ τ,
      Repeats names R given σ τ (M.eval e σ) (M.eval e τ) fun _ => given)
    (hnames : (∀ x ∈ Expr.allIdents es, x ∈ names) ∧ ∀ x ∈ Expr.allPackages es, x ∈ names)
    (given : Prop) (σ τ : State δ φ ω) :
    Repeats names R given σ τ (M.evalAll es σ) (M.evalAll es τ) fun _ => given := by
  induction es generalizing σ τ with
  | nil =>
    rw [evalAll, evalAll]
    exact .result id
  | cons e es ihRest =>
    simp only [Expr.allIdents, Expr.allPackages, List.forall_mem_append] at hnames
    obtain ⟨⟨hidents, hrestIdents⟩, hpackages, hrestPackages⟩ := hnames
    rw [evalAll, evalAll]
    refine (ih e (by simp) ⟨hidents, hpackages⟩ given σ τ).bind fun v σ' τ' => ?_
    refine (ihRest (fun e he => ih e (by simp [he])) ⟨hrestIdents, hrestPackages⟩ σ' τ').bind
      fun vs σ'' τ'' => ?_
    exact .result id

section

variable {given : Prop} {σ τ : State δ φ ω}

private theorem ident_repeats {name : String} (hname : name ∈ names) :
    Repeats names R given σ τ (M.place (.ident name) σ) (M.place (.ident name) τ)
      fun q => given ∧ R q.cell := by
  constructor
  · intro q υ h
    rw [place] at h
    cases hcell : σ.lookup name with
    | none => rw [hcell] at h; cases h
    | some cell =>
      rw [hcell] at h
      cases h
      exact Nat.le_refl _
  · intro hgiven hshows q υ h _
    rw [place] at h ⊢
    rw [hshows.lookup_eq name hname]
    cases hcell : σ.lookup name with
    | none => rw [hcell] at h; cases h
    | some cell =>
      rw [hcell] at h
      cases h
      refine ⟨⟨hgiven, hshows.mem_of_lookup name hname cell hcell⟩, rfl, ?_⟩
      rw [← hshows.world_eq]

private theorem load_repeats (q : Place) :
    Repeats names R (given ∧ R q.cell) σ τ (σ.load q >>= fun v => pure (v, σ))
      (τ.load q >>= fun v => pure (v, τ)) fun _ => given :=
  .look (f := fun ρ => ρ.load q) (fun hgiven hshows _ hv => ⟨hgiven.1, hshows.load hgiven.2 hv⟩)
    fun _ => .result id

/-- A place that is found from another, and what is done with it. -/
private theorem find_repeats {f : State δ φ ω → Except Trap Place} {q : Place}
    {next later : Place → Except Trap (α × State δ φ ω)} {P : α → Prop}
    (h : σ.Shows names R τ → R q.cell → ∀ r, f σ = .ok r → R r.cell ∧ f τ = .ok r)
    (hnext : ∀ r, Repeats names R (given ∧ R r.cell) σ τ (next r) (later r) P) :
    Repeats names R (given ∧ R q.cell) σ τ (f σ >>= next) (f τ >>= later) P := by
  refine .look (fun hgiven hshows r hr => ?_) hnext
  obtain ⟨hcell, hτ⟩ := h hshows hgiven.2 r hr
  exact ⟨⟨hgiven.1, hcell⟩, hτ⟩

private theorem ask_repeats (accessor : Accessor) (d : δ) (args : List (Value δ φ)) :
    Repeats names R given σ τ
      (M.ask accessor d args σ.world >>= fun answer =>
        pure (answer.1, ({ σ with world := answer.2 } : State δ φ ω)))
      (M.ask accessor d args τ.world >>= fun answer =>
        pure (answer.1, ({ τ with world := answer.2 } : State δ φ ω))) fun _ => given := by
  constructor
  · intro a υ h
    obtain ⟨answer, -, h⟩ := bind_eq_ok_iff.mp h
    cases h
    exact Nat.le_refl _
  · intro hgiven hshows a υ h _
    rw [hshows.world_eq]
    obtain ⟨answer, hask, h⟩ := bind_eq_ok_iff.mp h
    cases h
    exact ⟨hgiven, rfl, bind_eq_ok_iff.mpr ⟨answer, hask, rfl⟩⟩

private theorem absent_repeats {package : String} (hname : package ∈ names) (kind : AbsentKind) :
    Repeats names R given σ τ (M.eval (.absent package kind) σ) (M.eval (.absent package kind) τ)
      fun _ => given := by
  constructor
  · intro v υ h
    rw [eval] at h
    cases hcell : σ.lookup package with
    | none => rw [hcell] at h; cases h; exact Nat.le_refl _
    | some cell => rw [hcell] at h; cases h
  · intro hgiven hshows v υ h _
    rw [eval] at h ⊢
    rw [hshows.lookup_eq package hname]
    cases hcell : σ.lookup package with
    | none =>
      rw [hcell] at h
      cases h
      refine ⟨hgiven, rfl, ?_⟩
      rw [← hshows.world_eq]
    | some cell => rw [hcell] at h; cases h

end

/-- As long as an expression allocates nothing, what it mentions determines its value, and the place
that it stands for. -/
private theorem eval_place_repeats (e : Expr) (hnames : Knows names e) :
    (∀ given σ τ, Repeats names R given σ τ (M.eval e σ) (M.eval e τ) fun _ => given) ∧
      ∀ given σ τ, Repeats names R given σ τ (M.place e σ) (M.place e τ)
        fun q => given ∧ R q.cell := by
  induction e using Expr.induction with
  | ident name =>
    have hname : name ∈ names := hnames.1 name (by simp [Expr.idents])
    refine ⟨fun given σ τ => ?_, fun given σ τ => ident_repeats hname⟩
    have heval : ∀ σ : State δ φ ω, M.eval (.ident name) σ = M.place (.ident name) σ >>=
        fun answer => answer.2.load answer.1 >>= fun v => pure (v, answer.2) := by
      intro σ
      rw [eval, place]
      cases σ.lookup name <;> rfl
    rw [heval, heval]
    exact (ident_repeats hname).bind fun q σ' τ' => load_repeats q
  | int value | str text =>
    refine ⟨fun given σ τ => ?_, fun given σ τ => ?_⟩
    · rw [eval, eval]
      exact .result id
    · simp only [place]
      exact .error _ _
  | access value accessor args ihValue ihArgs =>
    simp only [Knows, Expr.idents, Expr.packages, List.forall_mem_append] at hnames
    refine ⟨fun given σ τ => ?_, fun given σ τ => ?_⟩
    · rw [eval, eval]
      refine ((ihValue ⟨hnames.1.1, hnames.2.1⟩).1 given σ τ).bind fun v σ' τ' => ?_
      refine (evalAll_repeats (fun e he hnames => (ihArgs e he hnames).1)
        ⟨hnames.1.2, hnames.2.2⟩ given σ' τ').bind fun vs σ'' τ'' => ?_
      cases v with
      | dynamic d => exact ask_repeats accessor d vs
      | _ => exact .error _ _
    · simp only [place]
      exact .error _ _
  | call callee args =>
    refine ⟨fun given σ τ => ?_, fun given σ τ => ?_⟩
    · rw [eval, eval]
      exact .error _ _
    · simp only [place]
      exact .error _ _
  | cast type value ih =>
    refine ⟨fun given σ τ => ?_, fun given σ τ => ?_⟩
    · rw [eval, eval]
      refine ((ih hnames).1 given σ τ).bind fun v σ' τ' => ?_
      exact .look (f := fun _ => M.convert type v) (fun hgiven _ _ h => ⟨hgiven, h⟩)
        fun _ => .result id
    · simp only [place]
      exact .error _ _
  | field base name ih =>
    refine ⟨fun given σ τ => ?_, fun given σ τ => ?_⟩
    · rw [eval, eval]
      refine ((ih hnames).2 given σ τ).bind fun q σ' τ' => ?_
      exact find_repeats (f := fun ρ => ρ.member q name)
        (fun hshows hq r hr => hshows.member hq hr) fun r => load_repeats r
    · rw [place, place]
      refine ((ih hnames).2 given σ τ).bind fun q σ' τ' => ?_
      exact find_repeats (f := fun ρ => ρ.member q name)
        (fun hshows hq r hr => hshows.member hq hr) fun r => .result id
  | index base position ihBase ihPosition =>
    simp only [Knows, Expr.idents, Expr.packages, List.forall_mem_append] at hnames
    have hbase := (ihBase ⟨hnames.1.1, hnames.2.1⟩).2
    have hposition := (ihPosition ⟨hnames.1.2, hnames.2.2⟩).1
    refine ⟨fun given σ τ => ?_, fun given σ τ => ?_⟩
    · rw [eval, eval]
      refine (hbase given σ τ).bind fun q σ' τ' => (hposition _ σ' τ').bind fun i σ'' τ'' => ?_
      exact find_repeats (f := fun ρ => ρ.element q i)
        (fun hshows hq r hr => hshows.element hq hr) fun r => load_repeats r
    · rw [place, place]
      refine (hbase given σ τ).bind fun q σ' τ' => (hposition _ σ' τ').bind fun i σ'' τ'' => ?_
      exact find_repeats (f := fun ρ => ρ.element q i)
        (fun hshows hq r hr => hshows.element hq hr) fun r => .result id
  | deref pointer ih =>
    refine ⟨fun given σ τ => ?_, fun given σ τ => ?_⟩
    · rw [eval, eval]
      refine ((ih hnames).2 given σ τ).bind fun q σ' τ' => ?_
      exact find_repeats (f := fun ρ => ρ.pointee q)
        (fun hshows hq r hr => hshows.pointee hq hr) fun r => load_repeats r
    · rw [place, place]
      refine ((ih hnames).2 given σ τ).bind fun q σ' τ' => ?_
      exact find_repeats (f := fun ρ => ρ.pointee q)
        (fun hshows hq r hr => hshows.pointee hq hr) fun r => .result id
  | not operand ih =>
    refine ⟨fun given σ τ => ?_, fun given σ τ => ?_⟩
    · rw [eval, eval]
      refine ((ih hnames).1 given σ τ).bind fun v σ' τ' => ?_
      cases v with
      | atom value =>
        cases value with
        | bool b => exact .result id
        | _ => exact .error _ _
      | _ => exact .error _ _
    · simp only [place]
      exact .error _ _
  | binary op left right ihLeft ihRight =>
    simp only [Knows, Expr.idents, Expr.packages, List.forall_mem_append] at hnames
    have hleft := (ihLeft ⟨hnames.1.1, hnames.2.1⟩).1
    have hright := (ihRight ⟨hnames.1.2, hnames.2.2⟩).1
    refine ⟨fun given σ τ => ?_, fun given σ τ => ?_⟩
    · cases op with
      | and | or =>
        rw [eval, eval]
        refine (hleft given σ τ).bind fun v σ' τ' => ?_
        cases v with
        | atom value =>
          cases value with
          | bool b =>
            -- the left operand is the result or leaves it to the right one
            cases b
            all_goals
              first
              | exact .result id
              | exact hright _ σ' τ'
          | _ => exact .error _ _
        | _ => exact .error _ _
      | eq | ne | lt =>
        rw [eval, eval]
        · refine (hleft given σ τ).bind fun v σ' τ' => ?_
          refine (hright given σ' τ').bind fun w σ'' τ'' => ?_
          dsimp only
          generalize BinaryOp.compare? _ v w = result
          cases result with
          | none => exact .error _ _
          | some b => exact .result id
        all_goals simp
    · simp only [place]
      exact .error _ _
  | absent package kind =>
    refine ⟨fun given σ τ => absent_repeats (hnames.2 package (by simp [Expr.packages])) kind,
      fun given σ τ => ?_⟩
    simp only [place]
    exact .error _ _
  | new type =>
    refine ⟨fun given σ τ => ?_, fun given σ τ => ?_⟩
    · rw [eval, eval]
      cases M.zero? type with
      | none => exact .error _ _
      | some value => exact .allocate _ value _
    · simp only [place]
      exact .error _ _
  | make type length ih =>
    refine ⟨fun given σ τ => ?_, fun given σ τ => ?_⟩
    · rw [eval, eval]
      refine ((ih hnames).1 given σ τ).bind fun v σ' τ' => ?_
      dsimp only
      split
      · split
        · exact .allocate _ _ _
        · exact .error _ _
      · exact .error _ _
    · simp only [place]
      exact .error _ _
  | composite type =>
    refine ⟨fun given σ τ => ?_, fun given σ τ => ?_⟩
    · rw [eval, eval]
      cases M.zero? type with
      | none => exact .error _ _
      | some value =>
        cases value with
        | record fields => exact .result id
        | _ => exact .error _ _
    · simp only [place]
      exact .error _ _

/-- An expression that allocates nothing has the same value in a state that shows the same. -/
theorem eval_of_shows {e : Expr} {σ τ υ : State δ φ ω} {value : Value δ φ}
    (h : M.eval e σ = .ok (value, υ)) (hsize : υ.heap.length ≤ σ.heap.length)
    (hshows : σ.Shows e.mentioned R τ) :
    M.eval e τ = .ok (value, { τ with world := υ.world }) := by
  have hnames : Knows e.mentioned e :=
    ⟨fun _ hx => List.mem_append_left _ hx, fun _ hx => List.mem_append_right _ hx⟩
  exact (((eval_place_repeats e hnames).1 True σ τ).same trivial hshows value υ h hsize).2.2

end Machine

/-- A cell is reached from another by what pointers and slices refer to. -/
inductive State.Reaches (σ : State δ φ ω) (start : Nat) : Nat → Prop
  | start : Reaches σ start start
  | refers {q : Place} {cell : Nat} : Reaches σ start q.cell →
      σ.heap.read q = some (.pointer (some cell)) ∨ σ.heap.read q = some (.slice (some cell)) →
      Reaches σ start cell

namespace Machine

variable {M : Machine δ φ ω} {source : Expr} {p : Place} {d : δ} {σ τ : State δ φ ω}

/-- The expression has a dynamic value, whatever is stored at a place. -/
def Ignores (M : Machine δ φ ω) (source : Expr) (p : Place) (d : δ) (σ : State δ φ ω) : Prop :=
  ∀ value, M.eval source (σ.write p value) = .ok (.dynamic d, σ.write p value)

/-- An expression ignores a place to which none of the names that it mentions leads. -/
theorem ignores_of_unreached (h : M.eval source σ = .ok (.dynamic d, σ))
    (hapart : ∀ x ∈ source.mentioned, ∀ cell, σ.lookup x = some cell → ¬ σ.Reaches cell p.cell) :
    M.Ignores source p d σ := by
  intro value
  let reached (cell : Nat) : Prop :=
    ∃ x ∈ source.mentioned, ∃ start, σ.lookup x = some start ∧ σ.Reaches start cell
  apply eval_of_shows (R := reached) h (Nat.le_refl _)
  refine ⟨rfl, fun _ _ => rfl, ?_, ?_, ?_⟩
  · intro x hx cell hcell
    exact ⟨x, hx, cell, hcell, .start⟩
  · rintro q old ⟨x, hx, start, hstart, hreaches⟩ hread
    have hne : p.cell ≠ q.cell := fun heq => hapart x hx start hstart (heq ▸ hreaches)
    exact (Heap.read_congr (Heap.getElem?_write_ne value hne)).trans hread
  · rintro q cell ⟨x, hx, start, hstart, hreaches⟩ hrefers
    exact ⟨x, hx, start, hstart, hreaches.refers hrefers⟩

/-- What ignores a place keeps its value while the place is written to and cells are added, as long
as the names that it mentions are left alone. -/
theorem Ignores.eval_of_writes (h : M.Ignores source p d σ) {value : Value δ φ}
    (hwrites : Heap.Writes p value σ.heap τ.heap) (hworld : τ.world = σ.world)
    (hlookup : ∀ x ∈ source.mentioned, τ.lookup x = σ.lookup x) :
    M.eval source τ = .ok (.dynamic d, { τ with world := σ.world }) := by
  apply eval_of_shows (R := fun _ => True) (h value) (Nat.le_refl _)
  refine ⟨hworld, hlookup, fun _ _ _ _ => trivial, ?_, fun _ _ _ _ => trivial⟩
  intro q old _ hread
  have hlt : q.cell < σ.heap.length := by
    simpa [State.write] using Heap.cell_lt_of_read hread
  exact (Heap.read_congr (hwrites.cells q.cell hlt)).trans hread

end Machine

end Unmarshal
