import Unmarshal.Proofs.Execution.Machine

/-!
# Runs that come to an end

A run that ends stays the same when it is given more fuel, so that code either runs to one state or
never ends in one. Each form of statement has its rule, and a counted loop is run with an invariant
on the number of the rounds that are done.
-/
namespace Unmarshal

namespace Machine

variable {δ φ ω : Type} (M : Machine δ φ ω)

/-- The code runs from one state to the other. -/
def Runs (code : List Stmt) (σ τ : State δ φ ω) : Prop := ∃ fuel, M.run fuel code σ = .ok τ

def Steps (s : Stmt) (σ τ : State δ φ ω) : Prop := ∃ fuel, M.step fuel s σ = .ok τ

/-- The rounds of a loop that are left run from one state to the other. -/
def Rounds (counter : String) (bound : Expr) (body : List Stmt) (σ τ : State δ φ ω) : Prop :=
  ∃ fuel, M.rounds fuel counter bound body σ = .ok τ

variable {M} {σ τ υ ρ : State δ φ ω}

/-- The first result is the second, unless it is the given trap. -/
def UpTo {α : Type} (trap : Trap) (first second : Except Trap α) : Prop :=
  first = .error trap ∨ first = second

namespace UpTo

variable {α β : Type} {trap : Trap} {first second : Except Trap α}

theorem refl (result : Except Trap α) : UpTo trap result result := .inr rfl

theorem ok (h : UpTo trap first second) {result : α} (hfirst : first = .ok result) :
    second = .ok result := by
  rcases h with h | h
  · rw [hfirst] at h
    cases h
  · exact h ▸ hfirst

theorem error (h : UpTo trap first second) {other : Trap} (hne : other ≠ trap)
    (hfirst : first = .error other) : second = .error other := by
  rcases h with h | h
  · rw [hfirst] at h
    cases h
    exact absurd rfl hne
  · exact h ▸ hfirst

theorem bind {next later : α → Except Trap β} (h : UpTo trap first second)
    (hnext : ∀ a, UpTo trap (next a) (later a)) :
    UpTo trap (first >>= next) (second >>= later) := by
  rcases h with rfl | rfl
  · exact .inl rfl
  · cases first with
    | error e => exact .refl _
    | ok a => exact hnext a

end UpTo

/-- More fuel changes nothing but that a run is out of fuel. -/
private theorem fuel_succ (fuel : Nat) :
    (∀ code (σ : State δ φ ω), UpTo .outOfFuel (M.run fuel code σ) (M.run (fuel + 1) code σ)) ∧
    (∀ s (σ : State δ φ ω), UpTo .outOfFuel (M.step fuel s σ) (M.step (fuel + 1) s σ)) ∧
    ∀ counter bound body (σ : State δ φ ω), UpTo .outOfFuel (M.rounds fuel counter bound body σ)
      (M.rounds (fuel + 1) counter bound body σ) := by
  induction fuel with
  | zero =>
    refine ⟨fun code σ => .inl ?_, fun s σ => .inl ?_, fun counter bound body σ => .inl ?_⟩
    · rw [run]
    · rw [step]
    · rw [rounds]
  | succ fuel ih =>
    obtain ⟨ihRun, ihStep, ihRounds⟩ := ih
    refine ⟨fun code σ => ?_, fun s σ => ?_, fun counter bound body σ => ?_⟩
    · cases code with
      | nil => exact .inr (by rw [run, run])
      | cons s rest =>
        rw [run, run]
        exact (ihStep s σ).bind fun τ => ihRun rest τ
    · cases s with
      | declare | define | assign => exact .inr (by rw [step, step])
      | branch init condition body =>
        rw [step, step]
        refine (ihRun _ _).bind fun τ => (UpTo.refl _).bind fun answer => ?_
        split
        · exact (ihRun _ _).bind fun υ => .refl _
        · exact .refl _
        · exact .refl _
      | loop counter bound body =>
        rw [step, step]
        exact (UpTo.refl _).bind fun τ => (ihRounds _ _ _ τ).bind fun υ => .refl _
    · rw [rounds, rounds]
      refine (UpTo.refl _).bind fun answer => ?_
      split
      · exact (ihRun _ _).bind fun τ => (UpTo.refl _).bind fun υ => ihRounds _ _ _ υ
      · exact .refl _
      · exact .refl _

theorem run_mono {fuel more : Nat} {code : List Stmt} (h : M.run fuel code σ = .ok τ)
    (hle : fuel ≤ more) : M.run more code σ = .ok τ := by
  induction hle with
  | refl => exact h
  | step _ ih => exact ((fuel_succ _).1 _ _).ok ih

theorem step_mono {fuel more : Nat} {s : Stmt} (h : M.step fuel s σ = .ok τ)
    (hle : fuel ≤ more) : M.step more s σ = .ok τ := by
  induction hle with
  | refl => exact h
  | step _ ih => exact ((fuel_succ _).2.1 _ _).ok ih

theorem rounds_mono {fuel more : Nat} {counter : String} {bound : Expr} {body : List Stmt}
    (h : M.rounds fuel counter bound body σ = .ok τ) (hle : fuel ≤ more) :
    M.rounds more counter bound body σ = .ok τ := by
  induction hle with
  | refl => exact h
  | step _ ih => exact ((fuel_succ _).2.2 _ _ _ _).ok ih

/-- A trap stays a trap, unless it was that the fuel was used up. -/
theorem run_trap_mono {fuel more : Nat} {code : List Stmt} {trap : Trap}
    (h : M.run fuel code σ = .error trap) (hne : trap ≠ .outOfFuel) (hle : fuel ≤ more) :
    M.run more code σ = .error trap := by
  induction hle with
  | refl => exact h
  | step _ ih => exact ((fuel_succ _).1 _ _).error hne ih

theorem Steps.unique {s : Stmt} (h : M.Steps s σ τ) (k : M.Steps s σ υ) : τ = υ := by
  obtain ⟨first, h⟩ := h
  obtain ⟨second, k⟩ := k
  have hmax := step_mono h (Nat.le_max_left first second)
  rw [step_mono k (Nat.le_max_right first second)] at hmax
  cases hmax
  rfl

namespace Runs

theorem unique {code : List Stmt} (h : M.Runs code σ τ) (k : M.Runs code σ υ) : τ = υ := by
  obtain ⟨first, h⟩ := h
  obtain ⟨second, k⟩ := k
  have hmax := run_mono h (Nat.le_max_left first second)
  rw [run_mono k (Nat.le_max_right first second)] at hmax
  cases hmax
  rfl

/-- Code that runs to an end never traps, however much fuel it is given. -/
theorem outOfFuel_of_trap {code : List Stmt} (h : M.Runs code σ τ) {fuel : Nat} {trap : Trap}
    (htrap : M.run fuel code σ = .error trap) : trap = .outOfFuel := by
  obtain ⟨enough, h⟩ := h
  refine Decidable.byContradiction fun hne => ?_
  have hmax := run_trap_mono htrap hne (Nat.le_max_left fuel enough)
  rw [run_mono h (Nat.le_max_right fuel enough)] at hmax
  cases hmax

theorem nil : M.Runs [] σ σ := ⟨1, rfl⟩

theorem cons {s : Stmt} {rest : List Stmt} (hs : M.Steps s σ τ) (hrest : M.Runs rest τ υ) :
    M.Runs (s :: rest) σ υ := by
  obtain ⟨first, hs⟩ := hs
  obtain ⟨second, hrest⟩ := hrest
  refine ⟨max first second + 1, ?_⟩
  rw [Machine.run]
  exact bind_eq_ok_iff.mpr ⟨τ, step_mono hs (Nat.le_max_left _ _),
    run_mono hrest (Nat.le_max_right _ _)⟩

theorem single {s : Stmt} (hs : M.Steps s σ τ) : M.Runs [s] σ τ := cons hs nil

theorem of_cons {s : Stmt} {rest : List Stmt} (h : M.Runs (s :: rest) σ υ) :
    ∃ τ, M.Steps s σ τ ∧ M.Runs rest τ υ := by
  obtain ⟨fuel, h⟩ := h
  cases fuel with
  | zero => cases h
  | succ fuel =>
    rw [Machine.run] at h
    obtain ⟨τ, hs, hrest⟩ := bind_eq_ok_iff.mp h
    exact ⟨τ, ⟨fuel, hs⟩, fuel, hrest⟩

theorem append {first second : List Stmt} (h : M.Runs first σ τ) (k : M.Runs second τ υ) :
    M.Runs (first ++ second) σ υ := by
  induction first generalizing σ with
  | nil =>
    obtain rfl := h.unique nil
    exact k
  | cons s rest ih =>
    obtain ⟨ρ, hs, hrest⟩ := h.of_cons
    exact cons hs (ih hrest)

end Runs

/-! ## Rules for statements -/

theorem steps_declare {name : String} {type : Shape} {value : Value δ φ}
    (hzero : M.zero? type = some value) (hnew : σ.block.lookup name = none) :
    M.Steps (.declare name type) σ (σ.bind name value) :=
  ⟨1, by rw [step, hzero]; simp [State.declare, hnew]⟩

theorem steps_define {name : String} {source : Expr} {value : Value δ φ}
    (hvalue : M.eval source σ = .ok (value, τ)) (hnew : τ.block.lookup name = none) :
    M.Steps (.define name source) σ (τ.bind name value) := by
  refine ⟨1, ?_⟩
  rw [step]
  exact bind_eq_ok_iff.mpr ⟨(value, τ), hvalue, by simp [State.declare, hnew]⟩

theorem steps_assign {target source : Expr} {p : Place} {value old : Value δ φ}
    (hplace : M.place target σ = .ok (p, τ)) (hvalue : M.eval source τ = .ok (value, υ))
    (hold : υ.heap.read p = some old) : M.Steps (.assign target source) σ (υ.write p value) := by
  refine ⟨1, ?_⟩
  rw [step]
  refine bind_eq_ok_iff.mpr ⟨(p, τ), hplace, bind_eq_ok_iff.mpr ⟨(value, υ), hvalue, ?_⟩⟩
  simp [State.store, hold]

theorem steps_branch_taken {init : Option Stmt} {condition : Expr} {body : List Stmt}
    (hinit : M.Runs init.toList σ.enter τ)
    (hcondition : M.eval condition τ = .ok (.atom (.bool true), υ))
    (hbody : M.Runs body υ.enter ρ) :
    M.Steps (.branch init condition body) σ ρ.leave.leave := by
  obtain ⟨first, hinit⟩ := hinit
  obtain ⟨second, hbody⟩ := hbody
  refine ⟨max first second + 1, ?_⟩
  rw [step]
  refine bind_eq_ok_iff.mpr ⟨τ, run_mono hinit (Nat.le_max_left _ _),
    bind_eq_ok_iff.mpr ⟨_, hcondition, ?_⟩⟩
  exact bind_eq_ok_iff.mpr ⟨ρ, run_mono hbody (Nat.le_max_right _ _), rfl⟩

theorem steps_branch_skipped {init : Option Stmt} {condition : Expr} {body : List Stmt}
    (hinit : M.Runs init.toList σ.enter τ)
    (hcondition : M.eval condition τ = .ok (.atom (.bool false), υ)) :
    M.Steps (.branch init condition body) σ υ.leave := by
  obtain ⟨fuel, hinit⟩ := hinit
  refine ⟨fuel + 1, ?_⟩
  rw [step]
  exact bind_eq_ok_iff.mpr ⟨τ, hinit, bind_eq_ok_iff.mpr ⟨_, hcondition, rfl⟩⟩

theorem steps_loop {counter : String} {bound : Expr} {body : List Stmt}
    (h : M.Rounds counter bound body (σ.enter.bind counter (.atom (.int 0))) τ) :
    M.Steps (.loop counter bound body) σ τ.leave := by
  obtain ⟨fuel, h⟩ := h
  refine ⟨fuel + 1, ?_⟩
  rw [step]
  exact bind_eq_ok_iff.mpr ⟨_, by simp [State.declare, State.enter],
    bind_eq_ok_iff.mpr ⟨τ, h, rfl⟩⟩

/-- A loop that counts to `n` keeps what every round hands on to the next. -/
theorem rounds_of_invariant {counter : String} {bound : Expr} {body : List Stmt} {n : Nat}
    {I : Nat → State δ φ ω → Prop}
    (htest : ∀ k σ, I k σ →
      M.eval (.binary .lt (.ident counter) bound) σ = .ok (.atom (.bool (decide (k < n))), σ))
    (hround : ∀ k < n, ∀ σ, I k σ → ∃ τ υ, M.Runs body σ.enter τ ∧
      M.increment counter τ.leave = .ok υ ∧ I (k + 1) υ)
    {k : Nat} (hk : k ≤ n) (hstart : I k σ) : ∃ τ, M.Rounds counter bound body σ τ ∧ I n τ := by
  induction hleft : n - k generalizing k σ with
  | zero =>
    obtain rfl : k = n := by omega
    refine ⟨σ, ⟨1, ?_⟩, hstart⟩
    have hfalse := htest k σ hstart
    rw [decide_eq_false (Nat.lt_irrefl k)] at hfalse
    rw [rounds]
    exact bind_eq_ok_iff.mpr ⟨_, hfalse, rfl⟩
  | succ left ih =>
    have hlt : k < n := by omega
    obtain ⟨τ, υ, ⟨first, hbody⟩, hnext, hI⟩ := hround k hlt σ hstart
    obtain ⟨ρ, ⟨second, hrest⟩, hend⟩ := ih (by omega) hI (by omega)
    refine ⟨ρ, ⟨max first second + 1, ?_⟩, hend⟩
    have htrue := htest k σ hstart
    rw [decide_eq_true hlt] at htrue
    rw [rounds]
    refine bind_eq_ok_iff.mpr ⟨_, htrue, bind_eq_ok_iff.mpr ⟨τ, ?_, ?_⟩⟩
    · exact run_mono hbody (Nat.le_max_left _ _)
    · exact bind_eq_ok_iff.mpr ⟨υ, hnext, rounds_mono hrest (Nat.le_max_right _ _)⟩

end Machine

end Unmarshal
