import Unmarshal.Proofs.Execution.Runs
import Unmarshal.Proofs.Execution.Zero

/-!
# Machines that refuse questions

Of two machines that differ in their answers only, one stops with a trap where the other may go on.
What it runs to its end, the other runs to the same end.
-/
namespace Unmarshal

namespace Machine

variable {δ φ ω : Type}

/-- The first machine answers as the second does, or stops with the trap. -/
structure Within (trap : Trap) (M N : Machine δ φ ω) : Prop where
  types : M.types = N.types
  zeroFloat : M.zeroFloat = N.zeroFloat
  single : M.single = N.single
  ask : ∀ accessor d args world,
    UpTo trap (M.ask accessor d args world) (N.ask accessor d args world)

namespace Within

variable {trap : Trap} {M N : Machine δ φ ω}

theorem zeroOf_eq (h : Within trap M N) (path : List String) (name : String) :
    M.zeroOf path name = N.zeroOf path name := by
  have hatom : M.zeroAtom = N.zeroAtom := by
    funext access
    cases access <;> simp [zeroAtom, h.zeroFloat]
  induction path, name using M.types.followInduction with
  | scalar path name type hs => rw [zeroOf, zeroOf, hs, hatom]
  | visited path name hn hp =>
    rw [zeroOf, zeroOf, hn]
    simp only [hp, if_true]
  | unknown path name hn hp hf =>
    rw [zeroOf, zeroOf, hn]
    simp only [hp, if_false]
    split
    · split
      · rfl
      · next hother => rw [← h.types, hf] at hother; cases hother
    · next hother => rw [hf] at hother; cases hother
  | entry path name shape hn hp hf ih =>
    rw [zeroOf_entry hn hp hf, zeroOf_entry hn hp (h.types ▸ hf), funext ih]

theorem zero?_eq (h : Within trap M N) (type : Shape) : M.zero? type = N.zero? type := by
  rw [zero?, zero?, funext (h.zeroOf_eq [])]

theorem elemZero?_eq (h : Within trap M N) (type : Shape) :
    M.elemZero? type = N.elemZero? type := by
  rw [elemZero?, elemZero?, h.types]
  split
  · exact h.zero?_eq _
  · rfl

theorem convert_eq (h : Within trap M N) (type : String) (value : Value δ φ) :
    M.convert type value = N.convert type value := by
  have hnarrow : M.narrow = N.narrow := by
    funext scalar atom
    cases atom <;> simp [narrow, h.single]
  unfold convert
  rw [hnarrow]

private theorem evalAll_upTo {es : List Expr}
    (ih : ∀ e ∈ es, ∀ σ, UpTo trap (M.eval e σ) (N.eval e σ)) (σ : State δ φ ω) :
    UpTo trap (M.evalAll es σ) (N.evalAll es σ) := by
  induction es generalizing σ with
  | nil => exact .inr (by rw [evalAll, evalAll])
  | cons e es ihRest =>
    rw [evalAll, evalAll]
    refine (ih e (by simp) σ).bind fun answer => ?_
    exact (ihRest (fun e he => ih e (by simp [he])) _).bind fun _ => .refl _

/-- Expressions are evaluated alike but for the trap, and so are the places they stand for. -/
private theorem eval_place_upTo (h : Within trap M N) (e : Expr) :
    (∀ σ, UpTo trap (M.eval e σ) (N.eval e σ)) ∧
      ∀ σ, UpTo trap (M.place e σ) (N.place e σ) := by
  induction e using Expr.induction with
  | ident name => exact ⟨fun σ => .inr (by rw [eval, eval]), fun σ => .inr (by rw [place, place])⟩
  | int value => exact ⟨fun σ => .inr (by rw [eval, eval]), fun σ => .inr (by simp [place])⟩
  | str text => exact ⟨fun σ => .inr (by rw [eval, eval]), fun σ => .inr (by simp [place])⟩
  | access value accessor args ihValue ihArgs =>
    refine ⟨fun σ => ?_, fun σ => .inr (by simp [place])⟩
    rw [eval, eval]
    refine (ihValue.1 σ).bind fun answer => ?_
    refine (evalAll_upTo (fun e he => (ihArgs e he).1) answer.2).bind fun rest => ?_
    cases answer.1 with
    | dynamic d => exact (h.ask accessor d rest.1 rest.2.world).bind fun _ => .refl _
    | _ => exact .refl _
  | call callee args => exact ⟨fun σ => .inr (by rw [eval, eval]), fun σ => .inr (by simp [place])⟩
  | cast type value ih =>
    refine ⟨fun σ => ?_, fun σ => .inr (by simp [place])⟩
    rw [eval, eval]
    exact (ih.1 σ).bind fun answer => .inr (by simp only [h.convert_eq])
  | field base name ih =>
    refine ⟨fun σ => ?_, fun σ => ?_⟩
    · rw [eval, eval]
      exact (ih.2 σ).bind fun _ => .refl _
    · rw [place, place]
      exact (ih.2 σ).bind fun _ => .refl _
  | index base position ihBase ihPosition =>
    refine ⟨fun σ => ?_, fun σ => ?_⟩
    · rw [eval, eval]
      exact (ihBase.2 σ).bind fun _ => (ihPosition.1 _).bind fun _ => .refl _
    · rw [place, place]
      exact (ihBase.2 σ).bind fun _ => (ihPosition.1 _).bind fun _ => .refl _
  | deref pointer ih =>
    refine ⟨fun σ => ?_, fun σ => ?_⟩
    · rw [eval, eval]
      exact (ih.2 σ).bind fun _ => .refl _
    · rw [place, place]
      exact (ih.2 σ).bind fun _ => .refl _
  | not operand ih =>
    refine ⟨fun σ => ?_, fun σ => .inr (by simp [place])⟩
    rw [eval, eval]
    exact (ih.1 σ).bind fun _ => .refl _
  | binary op left right ihLeft ihRight =>
    refine ⟨fun σ => ?_, fun σ => .inr (by simp [place])⟩
    cases op with
    | and =>
      rw [eval, eval]
      refine (ihLeft.1 σ).bind fun answer => ?_
      split
      · exact ihRight.1 _
      · exact .refl _
      · exact .refl _
    | or =>
      rw [eval, eval]
      refine (ihLeft.1 σ).bind fun answer => ?_
      split
      · exact .refl _
      · exact ihRight.1 _
      · exact .refl _
    | eq | ne | lt =>
      rw [eval, eval]
      · exact (ihLeft.1 σ).bind fun _ => (ihRight.1 _).bind fun _ => .refl _
      all_goals simp
  | absent package kind =>
    exact ⟨fun σ => .inr (by rw [eval, eval]), fun σ => .inr (by simp [place])⟩
  | new type =>
    exact ⟨fun σ => .inr (by rw [eval, eval, h.zero?_eq]), fun σ => .inr (by simp [place])⟩
  | make type length ih =>
    refine ⟨fun σ => ?_, fun σ => .inr (by simp [place])⟩
    rw [eval, eval, h.elemZero?_eq]
    exact (ih.1 σ).bind fun _ => .refl _
  | composite type =>
    exact ⟨fun σ => .inr (by rw [eval, eval, h.zero?_eq]), fun σ => .inr (by simp [place])⟩

private theorem run_upTo (h : Within trap M N) (fuel : Nat) :
    (∀ code σ, UpTo trap (M.run fuel code σ) (N.run fuel code σ)) ∧
    (∀ s σ, UpTo trap (M.step fuel s σ) (N.step fuel s σ)) ∧
    ∀ counter bound body σ, UpTo trap (M.rounds fuel counter bound body σ)
      (N.rounds fuel counter bound body σ) := by
  have heval := fun e => (h.eval_place_upTo e).1
  have hplace := fun e => (h.eval_place_upTo e).2
  induction fuel with
  | zero =>
    refine ⟨fun code σ => .inr ?_, fun s σ => .inr ?_, fun counter bound body σ => .inr ?_⟩
    · rw [run, run]
    · rw [step, step]
    · rw [rounds, rounds]
  | succ fuel ih =>
    obtain ⟨ihRun, ihStep, ihRounds⟩ := ih
    refine ⟨fun code σ => ?_, fun s σ => ?_, fun counter bound body σ => ?_⟩
    · cases code with
      | nil => exact .inr (by rw [run, run])
      | cons s rest =>
        rw [run, run]
        exact (ihStep s σ).bind fun τ => ihRun rest τ
    · cases s with
      | declare name type => exact .inr (by rw [step, step, h.zero?_eq])
      | define name value =>
        rw [step, step]
        exact (heval value σ).bind fun _ => .refl _
      | assign target value =>
        rw [step, step]
        exact (hplace target σ).bind fun _ => (heval value _).bind fun _ => .refl _
      | branch init condition body =>
        rw [step, step]
        refine (ihRun _ _).bind fun τ => (heval condition τ).bind fun answer => ?_
        split
        · exact (ihRun _ _).bind fun υ => .refl _
        · exact .refl _
        · exact .refl _
      | loop counter bound body =>
        rw [step, step]
        exact (UpTo.refl _).bind fun τ => (ihRounds _ _ _ τ).bind fun υ => .refl _
    · rw [rounds, rounds]
      refine (heval _ σ).bind fun answer => ?_
      split
      · refine (ihRun _ _).bind fun τ => ?_
        exact ((hplace _ _).bind fun _ => .refl _).bind fun υ => ihRounds _ _ _ υ
      · exact .refl _
      · exact .refl _

theorem runs (h : Within trap M N) {code : List Stmt} {σ τ : State δ φ ω}
    (hrun : M.Runs code σ τ) : N.Runs code σ τ := by
  obtain ⟨fuel, hrun⟩ := hrun
  exact ⟨fuel, ((h.run_upTo fuel).1 code σ).ok hrun⟩

theorem evalAll (h : Within trap M N) {es : List Expr} {values : List (Value δ φ)}
    {σ τ : State δ φ ω} (heval : M.evalAll es σ = .ok (values, τ)) :
    N.evalAll es σ = .ok (values, τ) :=
  (evalAll_upTo (fun e _ => (h.eval_place_upTo e).1) σ).ok heval

end Within

end Machine

end Unmarshal
