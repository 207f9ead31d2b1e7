import Unmarshal.Proofs.Execution.Runs

/-!
# Sizes of slices

The states in which the statements of a run are executed, down to those in the bodies of guards and
loops, and what it is to make a slice with the size that the loop after it counts to. Runs that do
so are composed of their parts like other runs.
-/
namespace Unmarshal

namespace Machine

variable {δ φ ω : Type} (M : Machine δ φ ω)

/-- Rounds that start in the first state come to a test of the bound in the second. -/
inductive Tests (counter : String) (bound : Expr) (body : List Stmt) :
    State δ φ ω → State δ φ ω → Prop where
  | first (σ : State δ φ ω) : Tests counter bound body σ σ
  | next {σ τ υ ρ κ : State δ φ ω}
      (htest : M.eval (.binary .lt (.ident counter) bound) σ = .ok (.atom (.bool true), τ))
      (hbody : M.Runs body τ.enter υ) (hcount : M.increment counter υ.leave = .ok ρ)
      (h : Tests counter bound body ρ κ) : Tests counter bound body σ κ

mutual

/-- In the second state, the second code is what is left of a block in a run that starts with the
first code and state. -/
inductive Visits : List Stmt → State δ φ ω → List Stmt → State δ φ ω → Prop where
  | here (code : List Stmt) (σ : State δ φ ω) : Visits code σ code σ
  | later {s : Stmt} {rest code : List Stmt} {σ τ υ : State δ φ ω} (hs : M.Steps s σ τ)
      (h : Visits rest τ code υ) : Visits (s :: rest) σ code υ
  | inside {s : Stmt} {rest code : List Stmt} {σ τ : State δ φ ω} (h : Inside s σ code τ) :
      Visits (s :: rest) σ code τ

/-- The blocks of a statement that is executed in the first state. -/
inductive Inside : Stmt → State δ φ ω → List Stmt → State δ φ ω → Prop where
  | header {init : Option Stmt} {condition : Expr} {body code : List Stmt} {σ τ : State δ φ ω}
      (h : Visits init.toList σ.enter code τ) : Inside (.branch init condition body) σ code τ
  | taken {init : Option Stmt} {condition : Expr} {body code : List Stmt} {σ τ υ ρ : State δ φ ω}
      (hinit : M.Runs init.toList σ.enter τ)
      (hcondition : M.eval condition τ = .ok (.atom (.bool true), υ))
      (h : Visits body υ.enter code ρ) : Inside (.branch init condition body) σ code ρ
  | round {counter : String} {bound : Expr} {body code : List Stmt} {σ τ υ ρ : State δ φ ω}
      (htests : M.Tests counter bound body (σ.enter.bind counter (.atom (.int 0))) τ)
      (htest : M.eval (.binary .lt (.ident counter) bound) τ = .ok (.atom (.bool true), υ))
      (h : Visits body υ.enter code ρ) : Inside (.loop counter bound body) σ code ρ

end

/-- The statement makes a slice of `n` elements on its way from one state to the other. -/
inductive Makes : Stmt → Nat → State δ φ ω → State δ φ ω → Prop where
  | define {name : String} {type : Shape} {length : Expr} {n : Nat} {σ τ υ : State δ φ ω}
      (hlength : M.eval length σ = .ok (.atom (.int n), υ))
      (hs : M.Steps (.define name (.make type length)) σ τ) :
      Makes (.define name (.make type length)) n σ τ
  | assign {target : Expr} {type : Shape} {length : Expr} {n : Nat} {p : Place}
      {σ τ υ ρ : State δ φ ω} (htarget : M.place target σ = .ok (p, υ))
      (hlength : M.eval length υ = .ok (.atom (.int n), ρ))
      (hs : M.Steps (.assign target (.make type length)) σ τ) :
      Makes (.assign target (.make type length)) n σ τ

/-- Wherever the code makes a slice, it goes on to a loop whose bound is the size of the slice each
time it is looked at. -/
def Sized (code : List Stmt) (σ : State δ φ ω) : Prop :=
  ∀ s rest n τ υ, M.Visits code σ (s :: rest) τ → M.Makes s n τ υ →
    ∃ counter bound body others, rest = .loop counter bound body :: others ∧
      ∀ κ, M.Tests counter bound body (υ.enter.bind counter (.atom (.int 0))) κ →
        M.eval bound κ = .ok (.atom (.int n), κ)

/-- The code runs from one state to the other, and its slices have the sizes of their loops. -/
structure Performs (code : List Stmt) (σ τ : State δ φ ω) : Prop where
  runs : M.Runs code σ τ
  sized : M.Sized code σ

variable {M} {σ τ υ ρ : State δ φ ω}

theorem Makes.steps {s : Stmt} {n : Nat} (h : M.Makes s n σ τ) : M.Steps s σ τ := by
  cases h <;> assumption

theorem Makes.unique {s : Stmt} {m n : Nat} (h : M.Makes s m σ τ) (k : M.Makes s n σ υ) :
    m = n ∧ τ = υ := by
  refine ⟨?_, h.steps.unique k.steps⟩
  cases h with
  | define hlength =>
    cases k with
    | define hagain =>
      rw [hlength] at hagain
      simp only [Except.ok.injEq, Prod.mk.injEq, Value.atom.injEq, Atom.int.injEq] at hagain
      omega
  | assign htarget hlength =>
    cases k with
    | assign hplace hagain =>
      rw [htarget] at hplace
      cases hplace
      rw [hlength] at hagain
      simp only [Except.ok.injEq, Prod.mk.injEq, Value.atom.injEq, Atom.int.injEq] at hagain
      omega

theorem Sized.nil : M.Sized [] σ := by
  intro s rest n τ υ hvisit
  cases hvisit

/-- Code that comes after does not tear a slice from its loop. -/
theorem Sized.append {first second : List Stmt} (h : M.Sized first σ)
    (hrun : M.Runs first σ τ) (k : M.Sized second τ) : M.Sized (first ++ second) σ := by
  induction first generalizing σ with
  | nil =>
    obtain rfl := hrun.unique .nil
    exact k
  | cons s code ih =>
    obtain ⟨next, hstep, hcode⟩ := hrun.of_cons
    intro t rest n υ ρ hvisit hmakes
    cases hvisit with
    | here =>
      obtain ⟨counter, bound, body, others, rfl, htests⟩ := h s code n σ ρ (.here _ _) hmakes
      exact ⟨counter, bound, body, others ++ second, rfl, htests⟩
    | later hs hvisit =>
      obtain rfl := hs.unique hstep
      exact ih (fun t rest n υ ρ hvisit => h t rest n υ ρ (.later hs hvisit)) hcode t rest n υ ρ
        hvisit hmakes
    | inside hinside => exact h t rest n υ ρ (.inside hinside) hmakes

namespace Performs

theorem nil : M.Performs [] σ σ := ⟨.nil, .nil⟩

theorem append {first second : List Stmt} (h : M.Performs first σ τ)
    (k : M.Performs second τ υ) : M.Performs (first ++ second) σ υ :=
  ⟨h.runs.append k.runs, h.sized.append h.runs k.sized⟩

theorem cons {s : Stmt} {rest : List Stmt} (h : M.Performs [s] σ τ)
    (k : M.Performs rest τ υ) : M.Performs (s :: rest) σ υ := h.append k

end Performs

/-! ## Rules for statements -/

theorem ask_ne_make (source : Expr) (accessor : Accessor) (type : Shape) (length : Expr) :
    source.ask accessor ≠ .make type length := by
  simp [Expr.ask]

theorem performs_declare {name : String} {type : Shape} {value : Value δ φ}
    (hzero : M.zero? type = some value) (hnew : σ.block.lookup name = none) :
    M.Performs [.declare name type] σ (σ.bind name value) := by
  refine ⟨.single (steps_declare hzero hnew), fun s rest n τ υ hvisit hmakes => ?_⟩
  cases hvisit with
  | here => cases hmakes
  | later _ hvisit => cases hvisit
  | inside hinside => cases hinside

theorem performs_define {name : String} {source : Expr} {value : Value δ φ}
    (hvalue : M.eval source σ = .ok (value, τ)) (hnew : τ.block.lookup name = none)
    (hplain : ∀ type length, source ≠ .make type length) :
    M.Performs [.define name source] σ (τ.bind name value) := by
  refine ⟨.single (steps_define hvalue hnew), fun s rest n τ υ hvisit hmakes => ?_⟩
  cases hvisit with
  | here => cases hmakes; exact absurd rfl (hplain _ _)
  | later _ hvisit => cases hvisit
  | inside hinside => cases hinside

theorem performs_assign {target source : Expr} {p : Place} {value old : Value δ φ}
    (hplace : M.place target σ = .ok (p, τ)) (hvalue : M.eval source τ = .ok (value, υ))
    (hold : υ.heap.read p = some old) (hplain : ∀ type length, source ≠ .make type length) :
    M.Performs [.assign target source] σ (υ.write p value) := by
  refine ⟨.single (steps_assign hplace hvalue hold), fun s rest n τ υ hvisit hmakes => ?_⟩
  cases hvisit with
  | here => cases hmakes; exact absurd rfl (hplain _ _)
  | later _ hvisit => cases hvisit
  | inside hinside => cases hinside

theorem performs_branch_taken {init : Option Stmt} {condition : Expr} {body : List Stmt}
    (hinit : M.Performs init.toList σ.enter τ)
    (hcondition : M.eval condition τ = .ok (.atom (.bool true), υ))
    (hbody : M.Performs body υ.enter ρ) :
    M.Performs [.branch init condition body] σ ρ.leave.leave := by
  refine ⟨.single (steps_branch_taken hinit.runs hcondition hbody.runs), ?_⟩
  intro s rest n κ ι hvisit hmakes
  cases hvisit with
  | here => cases hmakes
  | later _ hvisit => cases hvisit
  | inside hinside =>
    cases hinside with
    | header hvisit => exact hinit.sized s rest n κ ι hvisit hmakes
    | taken hrun hagain hvisit =>
      obtain rfl := hrun.unique hinit.runs
      rw [hcondition] at hagain
      cases hagain
      exact hbody.sized s rest n κ ι hvisit hmakes

theorem performs_branch_skipped {init : Option Stmt} {condition : Expr} {body : List Stmt}
    (hinit : M.Performs init.toList σ.enter τ)
    (hcondition : M.eval condition τ = .ok (.atom (.bool false), υ)) :
    M.Performs [.branch init condition body] σ υ.leave := by
  refine ⟨.single (steps_branch_skipped hinit.runs hcondition), ?_⟩
  intro s rest n κ ι hvisit hmakes
  cases hvisit with
  | here => cases hmakes
  | later _ hvisit => cases hvisit
  | inside hinside =>
    cases hinside with
    | header hvisit => exact hinit.sized s rest n κ ι hvisit hmakes
    | taken hrun hagain hvisit =>
      obtain rfl := hrun.unique hinit.runs
      rw [hcondition] at hagain
      cases hagain

section

variable {counter : String} {bound : Expr} {body : List Stmt} {n : Nat}
  {I : Nat → State δ φ ω → Prop}

/-- What every round hands on holds at each test of the bound. -/
theorem Tests.invariant {first last : State δ φ ω} (h : M.Tests counter bound body first last)
    (htest : ∀ k σ, I k σ →
      M.eval (.binary .lt (.ident counter) bound) σ = .ok (.atom (.bool (decide (k < n))), σ))
    (hround : ∀ k < n, ∀ σ, I k σ → ∃ τ υ, M.Performs body σ.enter τ ∧
      M.increment counter τ.leave = .ok υ ∧ I (k + 1) υ)
    {k : Nat} (hstart : I k first) : ∃ j, I j last := by
  induction h generalizing k with
  | first σ => exact ⟨k, hstart⟩
  | @next σ τ υ ρ κ hagain hbody hcount _ ih =>
    have htrue := htest k σ hstart
    rw [hagain] at htrue
    obtain ⟨hlt, rfl⟩ : k < n ∧ τ = σ := by simpa using htrue
    obtain ⟨τ', υ', hperforms, hcount', hnext⟩ := hround k hlt τ hstart
    obtain rfl := hbody.unique hperforms.runs
    rw [hcount] at hcount'
    cases hcount'
    exact ih hnext

/-- A loop that counts to `n`. -/
theorem performs_loop
    (htest : ∀ k σ, I k σ →
      M.eval (.binary .lt (.ident counter) bound) σ = .ok (.atom (.bool (decide (k < n))), σ))
    (hround : ∀ k < n, ∀ σ, I k σ → ∃ τ υ, M.Performs body σ.enter τ ∧
      M.increment counter τ.leave = .ok υ ∧ I (k + 1) υ)
    (hstart : I 0 (σ.enter.bind counter (.atom (.int 0)))) :
    ∃ τ, M.Performs [.loop counter bound body] σ τ.leave ∧ I n τ := by
  have hruns : ∀ k < n, ∀ σ, I k σ → ∃ τ υ, M.Runs body σ.enter τ ∧
      M.increment counter τ.leave = .ok υ ∧ I (k + 1) υ := by
    intro k hk σ h
    obtain ⟨τ, υ, hperforms, hrest⟩ := hround k hk σ h
    exact ⟨τ, υ, hperforms.runs, hrest⟩
  obtain ⟨τ, hrounds, hlast⟩ := rounds_of_invariant htest hruns (Nat.zero_le n) hstart
  refine ⟨τ, ⟨.single (steps_loop hrounds), fun s rest m κ ι hvisit hmakes => ?_⟩, hlast⟩
  cases hvisit with
  | here => cases hmakes
  | later _ hvisit => cases hvisit
  | inside hinside =>
    cases hinside with
    | @round _ _ _ _ _ ρ _ _ htests htrue hvisit =>
      obtain ⟨k, hk⟩ := htests.invariant htest hround hstart
      rw [htest k ρ hk] at htrue
      obtain ⟨hlt, rfl⟩ : k < n ∧ ρ = _ := by simpa using htrue
      obtain ⟨_, _, hperforms, -⟩ := hround k hlt ρ hk
      exact hperforms.sized s rest m κ ι hvisit hmakes

/-- A slice is made, and the loop after it counts to its size. -/
theorem performs_make {s : Stmt} (hmakes : M.Makes s n σ τ)
    (hloop : M.Performs [.loop counter bound body] τ υ)
    (htests : ∀ κ, M.Tests counter bound body (τ.enter.bind counter (.atom (.int 0))) κ →
      M.eval bound κ = .ok (.atom (.int n), κ)) :
    M.Performs [s, .loop counter bound body] σ υ := by
  refine ⟨.cons hmakes.steps hloop.runs, fun t rest m κ ι hvisit hagain => ?_⟩
  cases hvisit with
  | here =>
    obtain ⟨rfl, rfl⟩ := hagain.unique hmakes
    exact ⟨counter, bound, body, [], rfl, htests⟩
  | later hs hvisit =>
    obtain rfl := hs.unique hmakes.steps
    exact hloop.sized t rest m κ ι hvisit hagain
  | inside hinside => cases hmakes <;> cases hinside

end

end Machine

end Unmarshal
