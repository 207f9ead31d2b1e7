/-!
# Names in use

The locals of a generated body share one block, so every local claims its name before it is
declared. A base name that is taken gets the least number behind it that makes it free.
-/
namespace Unmarshal

/-- The names that generated code refers to besides its own locals: the argument list, the package
of the dynamic values, and the variable that a guard binds. -/
structure Options where
  args : String := "args"
  runtime : String := "js"
  kindVar : String := "jsType"
deriving DecidableEq, Repr

/-- The names that are taken in a body. -/
structure Names where
  used : List String
deriving Repr

namespace Names

/-- The names taken from the start. -/
def reserved (options : Options) : Names := ⟨[options.kindVar, options.runtime, options.args]⟩

/-- Takes a name without asking whether it is free. -/
def reserve (names : Names) (name : String) : Names := ⟨name :: names.used⟩

/-- The names that a base name may become: itself, then itself with 1, 2, … behind it. -/
def candidate (base : String) : Nat → String
  | 0 => base
  | n + 1 => base ++ toString (n + 1)

/-- The least number from `n` on whose candidate is not among `taken`. A candidate that is met
leaves the list, since no later one is equal to it; so the search ends. -/
def firstFree (base : String) (taken : List String) (n : Nat) : Nat :=
  if candidate base n ∈ taken then firstFree base (taken.erase (candidate base n)) (n + 1) else n
termination_by taken.length
decreasing_by
  rename_i hit
  have := List.length_pos_of_mem hit
  rw [List.length_erase_of_mem hit]
  omega

/-- Takes a name made from `base` that was free. -/
def claim (names : Names) (base : String) : String × Names :=
  let name := candidate base (firstFree base names.used 0)
  (name, names.reserve name)

private theorem toString_injective {m n : Nat} (h : toString m = toString n) : m = n := by
  have h := congrArg String.toList h
  simp only [Nat.toString_eq_repr, Nat.toList_repr] at h
  simpa using congrArg (fun ds => Nat.ofDigitChars 10 ds 0) h

private theorem ne_append_toString (base : String) (n : Nat) : base ≠ base ++ toString n := by
  intro h
  have hl := congrArg String.length h
  simp at hl

theorem candidate_injective (base : String) {m n : Nat}
    (h : candidate base m = candidate base n) : m = n := by
  cases m with
  | zero =>
    cases n with
    | zero => rfl
    | succ n => exact absurd h (ne_append_toString _ _)
  | succ m =>
    cases n with
    | zero => exact absurd h.symm (ne_append_toString _ _)
    | succ n =>
      have hl := congrArg String.toList h
      simp only [candidate, String.toList_append, List.append_cancel_left_eq] at hl
      exact toString_injective (String.toList_injective hl)

private theorem firstFree_not_mem (base : String) (taken : List String) (n : Nat)
    (used : List String) (h : ∀ x ∈ used, x ∈ taken ∨ ∃ m < n, x = candidate base m) :
    candidate base (firstFree base taken n) ∉ used := by
  induction taken, n using firstFree.induct base with
  | case1 taken n hit ih =>
    rw [firstFree, if_pos hit]
    apply ih
    intro x hx
    by_cases hc : x = candidate base n
    · exact .inr ⟨n, by omega, hc⟩
    · rcases h x hx with h | ⟨m, hm, h⟩
      · exact .inl ((List.mem_erase_of_ne hc).mpr h)
      · exact .inr ⟨m, by omega, h⟩
  | case2 taken n miss =>
    rw [firstFree, if_neg miss]
    intro hx
    rcases h _ hx with h | ⟨m, hm, h⟩
    · exact miss h
    · have := candidate_injective base h
      omega

theorem claim_not_mem (names : Names) (base : String) : (names.claim base).1 ∉ names.used :=
  firstFree_not_mem base names.used 0 names.used fun _ hx => .inl hx

/-- A claim takes the name it returns and no other. -/
theorem used_claim (names : Names) (base : String) :
    (names.claim base).2.used = (names.claim base).1 :: names.used := rfl

theorem mem_used_claim (names : Names) (base : String) {x : String} (hx : x ∈ names.used) :
    x ∈ (names.claim base).2.used :=
  List.mem_cons_of_mem _ hx

theorem mem_used_reserve (names : Names) (name : String) : name ∈ (names.reserve name).used :=
  List.mem_cons_self

theorem args_mem_used_reserve (options : Options) (name : String) :
    options.args ∈ ((reserved options).reserve name).used := by
  simp [reserve, reserved]

theorem runtime_mem_used_reserve (options : Options) (name : String) :
    options.runtime ∈ ((reserved options).reserve name).used := by
  simp [reserve, reserved]

end Names

end Unmarshal
