import Mathlib.Algebra.Group.Nat.Defs
import Mathlib.Data.Finset.Card
import Mathlib.Data.Finset.Image
import Mathlib.Order.Bounds.Basic
import Unmarshal.Names

/-!
# The least free name

A claim tries a base name, then the base name with 1, 2, … behind it, and takes the first that is
not in use. The numbers it tries give different names, so it ends after as many as there are names
in use, far within 32 bits. A name that is claimed stays in use, so it is claimed only once.
-/
namespace Unmarshal.Names

variable {base : String} {taken used : List String} {m n k : Nat}

/-! ## The number that is found -/

theorem firstFree_le (hfree : candidate base k ∉ taken) (hle : n ≤ k) :
    firstFree base taken n ≤ k := by
  induction taken, n using firstFree.induct base with
  | case1 taken n hit ih =>
    rw [firstFree, if_pos hit]
    have hne : n ≠ k := by
      rintro rfl
      exact hfree hit
    exact ih (fun hmem => hfree (List.mem_of_mem_erase hmem)) (by omega)
  | case2 taken n miss =>
    rw [firstFree, if_neg miss]
    exact hle

/-- The number that is found belongs to the first candidate that is free. -/
theorem isLeast_firstFree (base : String) (used : List String) :
    IsLeast {n | candidate base n ∉ used} (firstFree base used 0) := by
  constructor
  · exact claim_not_mem ⟨used⟩ base
  · intro k hfree
    exact firstFree_le hfree (Nat.zero_le k)

theorem candidate_mem_of_lt (h : n < firstFree base used 0) : candidate base n ∈ used := by
  by_contra hfree
  have hle := (isLeast_firstFree base used).2 hfree
  omega

/-- All candidates that are passed over are in use, and they are different names. -/
theorem firstFree_le_card (base : String) (used : List String) :
    firstFree base used 0 ≤ used.toFinset.card := by
  -- as many names in use as numbers below the one that is found
  have hsub : (Finset.range (firstFree base used 0)).image (candidate base) ⊆ used.toFinset := by
    intro name hname
    obtain ⟨n, hn, rfl⟩ := Finset.mem_image.mp hname
    exact List.mem_toFinset.mpr (candidate_mem_of_lt (Finset.mem_range.mp hn))
  have hcard := Finset.card_le_card hsub
  rwa [Finset.card_image_of_injective _ fun _ _ => candidate_injective base,
    Finset.card_range] at hcard

theorem claim_eq_self {names : Names} {base : String} (h : base ∉ names.used) :
    (names.claim base).1 = base := by
  have hzero : firstFree base names.used 0 = 0 := by
    rw [firstFree, if_neg (by simpa [candidate] using h)]
  simp [claim, hzero, candidate]

/-- A base name that is in use gets the least number that makes it free. -/
theorem claim_eq_suffixed {names : Names} {base : String} (h : base ∈ names.used) :
    ∃ n, IsLeast {n | 1 ≤ n ∧ base ++ toString n ∉ names.used} n ∧
      n ≤ names.used.toFinset.card ∧ (names.claim base).1 = base ++ toString n := by
  obtain ⟨hfree, hleast⟩ := isLeast_firstFree base names.used
  have hcard := firstFree_le_card base names.used
  have hclaim : (names.claim base).1 = candidate base (firstFree base names.used 0) := rfl
  cases hn : firstFree base names.used 0 with
  | zero =>
    rw [hn] at hfree
    exact absurd h hfree
  | succ n =>
    rw [hn] at hfree hleast hcard hclaim
    refine ⟨n + 1, ⟨⟨by omega, hfree⟩, ?_⟩, hcard, hclaim⟩
    rintro k ⟨hpos, hk⟩
    obtain ⟨k, rfl⟩ := Nat.exists_eq_succ_of_ne_zero (by omega : k ≠ 0)
    exact hleast hk

/-! ## A counter of 32 bits -/

/-- The first free name among the base name with `n`, `n + 1`, … behind it, as it is found with a
counter of 32 bits and no knowledge of how many names are in use. There is none if the counter
would have to leave its range. -/
def probe (base : String) (used : List String) (n : UInt32) : Option String :=
  if base ++ toString n.toNat ∈ used then
    if n.toNat + 1 < UInt32.size then probe base used (n + 1) else none
  else some (base ++ toString n.toNat)
termination_by UInt32.size - n.toNat
decreasing_by
  rename_i hlast
  rw [UInt32.toNat_add, UInt32.toNat_one, Nat.mod_eq_of_lt hlast]
  omega

/-- A claim that looks for its name with a counter of 32 bits. -/
def countedClaim (names : Names) (base : String) : Option (String × Names) :=
  if base ∈ names.used then
    (probe base names.used 1).map fun name => (name, names.reserve name)
  else some (base, names.reserve base)

theorem probe_eq {n : UInt32} (hk : k < UInt32.size) (hle : n.toNat ≤ k)
    (hfree : base ++ toString k ∉ used)
    (htaken : ∀ m, n.toNat ≤ m → m < k → base ++ toString m ∈ used) :
    probe base used n = some (base ++ toString k) := by
  -- on the distance of the counter from the number at which the search ends
  induction hgap : k - n.toNat generalizing n with
  | zero =>
    obtain rfl : n.toNat = k := by omega
    rw [probe, if_neg hfree]
  | succ gap ih =>
    have hlast : n.toNat + 1 < UInt32.size := by omega
    have hnext : (n + 1).toNat = n.toNat + 1 := by
      rw [UInt32.toNat_add, UInt32.toNat_one, Nat.mod_eq_of_lt hlast]
    rw [probe, if_pos (htaken _ (Nat.le_refl _) (by omega)), if_pos hlast]
    apply ih
    · omega
    · intro m hm hlt
      exact htaken m (by omega) hlt
    · omega

/-- The counter stays in its range while fewer names are in use than it has numbers. -/
theorem countedClaim_eq {names : Names} (hsize : names.used.toFinset.card < 2 ^ 32 - 1)
    (base : String) : names.countedClaim base = some (names.claim base) := by
  by_cases h : base ∈ names.used
  · obtain ⟨n, ⟨⟨hpos, hfree⟩, hleast⟩, hcard, hclaim⟩ := claim_eq_suffixed h
    have hk : n < UInt32.size := by
      have hbits : UInt32.size = 2 ^ 32 := rfl
      omega
    have hprobe : probe base names.used 1 = some (base ++ toString n) := by
      apply probe_eq hk (by simpa using hpos) hfree
      intro m hm hlt
      rw [UInt32.toNat_one] at hm
      by_contra hmiss
      have hle := hleast ⟨hm, hmiss⟩
      omega
    rw [countedClaim, if_pos h, hprobe, Option.map_some, ← hclaim]
    rfl
  · have hclaim : names.claim base =
        ((names.claim base).1, names.reserve (names.claim base).1) := rfl
    rw [countedClaim, if_neg h, hclaim, claim_eq_self h]

/-! ## Many claims -/

/-- What is asked of the names in use: to take a name, free or not, or to take a free name that is
made from a base name. -/
inductive Request where
  | reserve (name : String)
  | claim (base : String)
deriving DecidableEq, Repr

/-- The name that is taken on a request, and the names in use after it. -/
def take (names : Names) : Request → String × Names
  | .reserve name => (name, names.reserve name)
  | .claim base => names.claim base

/-- Requests in their order, each with the name that is taken on it. -/
def answers (names : Names) : List Request → List (Request × String)
  | [] => []
  | request :: requests =>
    (request, (names.take request).1) :: answers (names.take request).2 requests

theorem used_take (names : Names) (request : Request) :
    (names.take request).2.used = (names.take request).1 :: names.used := by
  cases request <;> rfl

/-- No claim of a sequence takes a name that was in use before the sequence. -/
theorem answers_fresh (names : Names) (requests : List Request) :
    ∀ answer ∈ names.answers requests, ∀ base, answer.1 = .claim base → answer.2 ∉ names.used := by
  induction requests generalizing names with
  | nil => simp [answers]
  | cons request requests ih =>
    rw [answers, List.forall_mem_cons]
    constructor
    · rintro base rfl
      exact claim_not_mem names base
    · intro answer hanswer base hclaim hused
      apply ih _ answer hanswer base hclaim
      rw [used_take]
      exact List.mem_cons_of_mem _ hused

theorem answers_pairwise (names : Names) (requests : List Request) :
    (names.answers requests).Pairwise fun earlier later =>
      ∀ base, later.1 = .claim base → earlier.2 ≠ later.2 := by
  induction requests generalizing names with
  | nil => exact .nil
  | cons request requests ih =>
    refine .cons ?_ (ih _)
    intro later hlater base hclaim heq
    apply answers_fresh _ requests later hlater base hclaim
    rw [used_take]
    exact heq ▸ List.mem_cons_self

/-- A claim ends and takes one name, which was free: the base name if it was, and otherwise the base
name with the least number behind it that makes it free. That number is at most the number of names
in use, so a counter of 32 bits does. In a sequence of requests every claim takes a name that
differs from all that were taken before, on whatever request. -/
theorem claim_takes_least_free (names : Names) (hsize : names.used.toFinset.card < 2 ^ 32 - 1) :
    (∀ base, names.countedClaim base = some (names.claim base) ∧
      (names.claim base).1 ∉ names.used ∧
      (names.claim base).2.used.toFinset = insert (names.claim base).1 names.used.toFinset ∧
      (base ∉ names.used → (names.claim base).1 = base) ∧
      (base ∈ names.used → ∃ n, IsLeast {n | 1 ≤ n ∧ base ++ toString n ∉ names.used} n ∧
        n ≤ names.used.toFinset.card ∧ (names.claim base).1 = base ++ toString n)) ∧
    ∀ requests, ((names.answers requests).Pairwise fun earlier later =>
        ∀ base, later.1 = .claim base → earlier.2 ≠ later.2) ∧
      ∀ answer ∈ names.answers requests, ∀ base, answer.1 = .claim base →
        answer.2 ∉ names.used := by
  constructor
  · intro base
    refine ⟨countedClaim_eq hsize base, names.claim_not_mem base, ?_, claim_eq_self,
      claim_eq_suffixed⟩
    rw [used_claim, List.toFinset_cons]
  · intro requests
    exact ⟨names.answers_pairwise requests, names.answers_fresh requests⟩

/-- Names among which a base name and its first suffixed forms are in use. -/
def crowded : Names := ⟨["row1", "args", "row", "row2"]⟩

/-- The third number makes the base name free; another base name that ends in a digit gets one more
digit. -/
theorem claim_takes_least_free_crowded :
    crowded.used.toFinset.card < 2 ^ 32 - 1 ∧
      (crowded.countedClaim "row").map Prod.fst = some "row3" ∧
      (crowded.claim "row1").1 ∉ crowded.used := by
  have hsize : crowded.used.toFinset.card < 2 ^ 32 - 1 := by decide
  obtain ⟨hclaims, -⟩ := claim_takes_least_free crowded hsize
  obtain ⟨hcounted, -, -, -, hsuffixed⟩ := hclaims "row"
  obtain ⟨n, hleast, -, hname⟩ := hsuffixed (by decide)
  have hthree : IsLeast {n | 1 ≤ n ∧ "row" ++ toString n ∉ crowded.used} 3 := by
    refine ⟨⟨by decide, by decide⟩, ?_⟩
    rintro n ⟨hpos, hfree⟩
    by_contra hlt
    have hcases : n = 1 ∨ n = 2 := by omega
    rcases hcases with rfl | rfl
    · exact hfree (by decide)
    · exact hfree (by decide)
  obtain rfl := hleast.unique hthree
  refine ⟨hsize, ?_, (hclaims "row1").2.1⟩
  rw [hcounted, Option.map_some, hname]
  decide

end Unmarshal.Names
