import Unmarshal.Proofs.Conversion
import Unmarshal.Proofs.Execution.Places
import Unmarshal.Proofs.LocalNames
import Unmarshal.Proofs.Writes

/-!
# Filling a supplied destination

Code that is given a destination writes to it and below it only, and declares no storage. Run where
the destination is zero, it leaves the converted value there and everything else as it was.
-/
namespace Unmarshal

namespace Names

/-- Names in use that are not claimed anyway do not change what is claimed. -/
theorem claim_eq_of_subset {names others : Names} {base : String}
    (hsub : names.used ⊆ others.used) (hfree : (names.claim base).1 ∉ others.used) :
    (others.claim base).1 = (names.claim base).1 := by
  have hle := firstFree_le hfree (Nat.zero_le _)
  have hge := firstFree_le (fun hmem => others.claim_not_mem base (hsub hmem)) (Nat.zero_le _)
  show candidate base (firstFree base others.used 0) = candidate base (firstFree base names.used 0)
  rw [Nat.le_antisymm hle hge]

/-- More names are in use, and none of them is among the ones to be declared. -/
structure Spares (names others : Names) (declared : List String) : Prop where
  subset : names.used ⊆ others.used
  apart : ∀ x ∈ declared, x ∉ others.used

namespace Spares

variable {names others after later : Names} {first second : List String}

theorem left (h : names.Spares others (first ++ second)) : names.Spares others first :=
  ⟨h.subset, fun x hx => h.apart x (List.mem_append_left _ hx)⟩

theorem right (h : names.Spares others (first ++ second)) (hafter : names.Claims after first)
    (hlater : others.Claims later first) (hnew : ∀ x ∈ second, x ∉ after.used) :
    after.Spares later second := by
  refine ⟨?_, ?_⟩
  · intro x hx
    rw [hafter.mem_used] at hx
    exact (hlater.mem_used x).mpr (hx.imp_right fun hx => h.subset hx)
  · intro x hx hused
    rcases (hlater.mem_used x).mp hused with hfirst | hothers
    · exact hnew x hx ((hafter.mem_used x).mpr (.inl hfirst))
    · exact h.apart x (List.mem_append_right _ hx) hothers

theorem claim {base : String} (h : names.Spares others ((names.claim base).1 :: second))
    (hnew : ∀ x ∈ second, x ∉ (names.claim base).2.used) :
    (others.claim base).1 = (names.claim base).1 ∧
      (names.claim base).2.Spares (others.claim base).2 second := by
  have hsame : (others.claim base).1 = (names.claim base).1 :=
    claim_eq_of_subset h.subset (h.apart _ (by simp))
  have hlater := Claims.single others base
  rw [hsame] at hlater
  have happend : names.Spares others ([(names.claim base).1] ++ second) := h
  exact ⟨hsame, happend.right (Claims.single names base) hlater hnew⟩

end Spares

end Names

namespace Layout

variable {options : Options}

private theorem fillFields_eq_of_spares {fields : List (Field Layout)}
    (ih : ∀ f ∈ fields, ∀ base source target (names others : Names),
      names.Spares others (Stmt.allLocals (f.type.fill options base source target names).1) →
      (f.type.fill options base source target others).1 =
        (f.type.fill options base source target names).1)
    {base : String} {source target : Expr} {names others : Names}
    (h : names.Spares others
      (Stmt.allLocals (fillFields options base source target fields names).1)) :
    (fillFields options base source target fields others).1 =
      (fillFields options base source target fields names).1 := by
  induction fields generalizing names others with
  | nil => rfl
  | cons f fields ihFields =>
    obtain ⟨name, type⟩ := f
    rw [fillFields, Stmt.allLocals_append] at h
    have hfirst := ih ⟨name, type⟩ (by simp) _ _ _ _ _ h.left
    have hafter := type.fill_claims options (base ++ name) (source.property name)
      (.field target name) names
    have hlater := type.fill_claims options (base ++ name) (source.property name)
      (.field target name) others
    rw [hfirst] at hlater
    have hothers := fill_claims options (.record (.record []) fields) base source target
      (type.fill options (base ++ name) (source.property name) (.field target name) names).2
    have hrest := h.right hafter hlater hothers.fresh
    rw [fillFields, fillFields, hfirst, ihFields (fun f hf => ih f (by simp [hf])) hrest]

/-- Names in use that the code does not declare anyway do not change the code. -/
theorem fill_eq_of_spares (layout : Layout) {base : String} {source target : Expr}
    {names others : Names}
    (h : names.Spares others
      (Stmt.allLocals (layout.fill options base source target names).1)) :
    (layout.fill options base source target others).1 =
      (layout.fill options base source target names).1 := by
  induction layout using Layout.induction generalizing base source target names others with
  | scalar declared type => rfl
  | optional declared pointee ih =>
    simp only [fill, Stmt.allLocals, Stmt.locals_whenPresent, Stmt.locals, List.append_nil,
      List.nil_append] at h
    simp only [fill, ih h]
  | sequence declared elem extent ih =>
    cases extent with
    | fixed length =>
      simp only [fill, Stmt.allLocals, Stmt.locals, List.append_nil] at h
      obtain ⟨hcounter, hinner⟩ := h.claim (fill_claims options elem _ _ _ _).fresh
      simp only [fill, hcounter, ih hinner]
    | dynamic =>
      simp only [fill, Stmt.allLocals, Stmt.locals, List.append_nil, List.nil_append,
        List.cons_append] at h
      have hinner := fill_claims options elem (base ++ "Elt")
        (source.element ((names.claim (base ++ "Len")).2.claim (base ++ "Idx")).1)
        (.index target (.ident ((names.claim (base ++ "Len")).2.claim (base ++ "Idx")).1))
        ((names.claim (base ++ "Len")).2.claim (base ++ "Idx")).2
      obtain ⟨hlength, h⟩ := h.claim hinner.claim_then.fresh
      obtain ⟨hcounter, h⟩ := h.claim hinner.fresh
      simp only [fill, hlength, hcounter, ih h]
  | record declared fields ih =>
    exact fillFields_eq_of_spares (fun f hf _ _ _ _ _ h => ih f hf h) h

end Layout

namespace Host

variable {δ φ : Type} {host : Host δ φ} {table : AliasTable} {options : Options} {names : Names}
  {layout : Layout} {source target : Expr} {root : String} {p : Place} {input : δ}
  {σ : State δ φ Unit}

/-- A destination that is zero is filled from a source that does not look at it. -/
theorem fill_destination (hne : options.kindVar ≠ options.runtime)
    (hdistinct : layout.EveryRecord List.Nodup)
    (hunfold : table.Unfolds layout.declared layout) (hready : σ.Ready options names)
    (hform : target.PlaceFrom root)
    (hnames : ∀ x, x ∈ source.mentioned ∨ x ∈ target.idents →
      x ∈ names.used ∧ x ≠ options.kindVar)
    (hplace : (host.machine table).place target σ = .ok (p, σ))
    (hzero : σ.heap.read p = some ((host.machine table).zero layout))
    (hsource : (host.machine table).Ignores source p input σ) (base : String) :
    ∃ τ, (host.machine table).Performs (layout.fill options base source target names).1 σ τ ∧
      (host.machine table).Fills options layout (· = input) p names
        (layout.fill options base source target names).2 σ τ := by
  have hsources : ∀ τ value, Heap.Writes p value σ.heap τ.heap →
      (∀ x ∈ names.used, x ≠ options.kindVar → τ.lookup x = σ.lookup x) →
      (host.machine table).eval source τ = .ok (.dynamic input, τ) := by
    intro τ value hwrites hlookup
    exact hsource.eval_of_writes hwrites rfl fun x hx =>
      hlookup x (hnames x (.inl hx)).1 (hnames x (.inl hx)).2
  by_cases hscalar : ∃ declared type, layout = .scalar declared type
  · obtain ⟨declared, type, rfl⟩ := hscalar
    have hreadable : (host.machine table).Readable (.scalar declared type) (· = input) :=
      Host.readable _ _
    cases hreadable with
    | scalar hanswered =>
      have heval := hsources σ _ (.refl hzero) fun _ _ _ => rfl
      exact Machine.fill_scalar base hready hplace rfl heval hanswered hzero
  · have htargets : (host.machine table).Targets options names p p target σ := by
      apply Machine.targets_of_place hzero (Machine.zero_barren layout) hform
        (fun x hx => hnames x (.inr hx)) _ hplace
      rintro x - - cell i - hcell rfl
      have hint := Machine.eq_int_of_read hcell rfl hzero
      cases layout with
      | scalar declared type => exact hscalar ⟨declared, type, rfl⟩
      | sequence declared elem extent => cases extent <;> simp [Machine.zero] at hint
      | optional | record => simp [Machine.zero] at hint
    have hsources : (host.machine table).Sources options names p source (· = input) σ := by
      intro τ hτ
      obtain ⟨value, hwrites⟩ := hτ.writes
      exact ⟨input, τ.world, rfl, hsources τ value hwrites hτ.lookup_eq⟩
    exact Machine.conforms hne hdistinct hunfold base source target names p (· = input) σ hready
      htargets hsources (Host.readable layout _) hzero

end Host

/-- A state in which code can fill a destination: the expression of the destination stands for a
place with the zero value of the shape, the source has a dynamic value whatever is stored there, the
locals of the code are new to the block and hide no name of the two expressions, and the runtime
package can be named, in a guard as well. -/
structure Machine.Supplied {δ φ ω : Type} (M : Machine δ φ ω) (options : Options) (shape : Shape)
    (source target : Expr) (code : List Stmt) (root : String) (p : Place) (input : δ)
    (σ : State δ φ ω) : Prop where
  form : target.PlaceFrom root
  stands : M.place target σ = .ok (p, σ)
  zero : ∃ value, M.zero? shape = some value ∧ σ.heap.read p = some value
  ignores : M.Ignores source p input σ
  apart : ∀ x, x ∈ source.mentioned ∨ x ∈ target.idents →
    x ∉ Stmt.allLocals code ∧ x ≠ options.kindVar
  new : ∀ x ∈ Stmt.allLocals code, σ.block.lookup x = none
  runtime_free : σ.lookup options.runtime = none
  kindVar_ne : options.kindVar ≠ options.runtime

namespace AliasTable

variable {δ φ : Type} {host : Host δ φ} {table : AliasTable} {options : Options} {base : String}
  {shape : Shape} {layout : Layout} {source target : Expr} {root : String} {p : Place} {input : δ}
  {σ : State δ φ Unit}

/-- The code runs as it would if more names were in use, and so it keeps what these stand for. -/
private theorem fill_supplied (hdistinct : layout.EveryRecord List.Nodup)
    (hunfold : table.Unfolds shape layout)
    (h : (host.machine table).Supplied options shape source target
      (layout.fill options base source target (.reserved options)).1 root p input σ)
    (others : List String) (hothers : ∀ x ∈ others,
      x ∉ Stmt.allLocals (layout.fill options base source target (.reserved options)).1) :
    ∃ τ, (host.machine table).Runs
        (layout.fill options base source target (.reserved options)).1 σ τ ∧
      τ.outer = σ.outer ∧ (∀ x ∈ others, τ.lookup x = σ.lookup x) ∧
      (∀ x ∈ target.idents, τ.lookup x = σ.lookup x) ∧
      ∃ value, Heap.Writes p value σ.heap τ.heap ∧
        (host.convert layout.expanded input).Stored τ.heap σ.heap.length value := by
  obtain rfl : layout.declared = shape := hunfold.declared_eq
  let known := σ.block.map Prod.fst ++ (source.mentioned ++ target.idents) ++ others
  let names : Names := ⟨known ++ (Names.reserved options).used⟩
  have hknown : ∀ x ∈ known,
      x ∉ Stmt.allLocals (layout.fill options base source target (.reserved options)).1 := by
    intro x hx hmem
    rcases List.mem_append.mp hx with hx | hx
    · rcases List.mem_append.mp hx with hx | hx
      · obtain ⟨entry, hentry, rfl⟩ := List.mem_map.mp hx
        have hnone := List.lookup_eq_none_iff.mp (h.new entry.1 hmem) entry hentry
        simp at hnone
      · exact (h.apart x (List.mem_append.mp hx)).1 hmem
    · exact hothers x hx hmem
  have hclaims := layout.fill_claims options base source target (.reserved options)
  have hspares : (Names.reserved options).Spares names
      (Stmt.allLocals (layout.fill options base source target (.reserved options)).1) := by
    refine ⟨List.subset_append_right _ _, ?_⟩
    intro x hx hused
    rcases List.mem_append.mp hused with hmem | hmem
    · exact hknown x hmem hx
    · exact hclaims.fresh x hx hmem
  have hready : σ.Ready options names := by
    refine ⟨?_, ?_, ?_, h.runtime_free⟩
    · intro x hx
      by_contra hunused
      apply hx
      rw [List.lookup_eq_none_iff]
      intro entry hentry
      have hne : entry.1 ≠ x := by
        rintro rfl
        have hmem := List.mem_map_of_mem (f := Prod.fst) hentry
        exact hunused (by simp [names, known, hmem])
      simpa using hne.symm
    · simp [names, Names.reserved]
    · simp [names, Names.reserved]
  have hzero : σ.heap.read p = some ((host.machine table).zero layout) := by
    obtain ⟨value, hvalue, hread⟩ := h.zero
    rw [Machine.zero?_of_unfolds (M := host.machine table) hunfold] at hvalue
    rw [hread, ← hvalue]
  have hmentioned : ∀ x, x ∈ source.mentioned ∨ x ∈ target.idents → x ∈ names.used := by
    intro x hx
    simp only [names, known, List.mem_append]
    exact .inl (.inl (.inr hx))
  obtain ⟨τ, hperforms, hfills⟩ := Host.fill_destination h.kindVar_ne hdistinct hunfold hready
    h.form (fun x hx => ⟨hmentioned x hx, (h.apart x hx).2⟩) h.stands hzero h.ignores base
  rw [layout.fill_eq_of_spares hspares] at hperforms
  obtain ⟨t, value, hwrites, hyields, hstored⟩ := hfills.filled
  rw [Host.eq_convert_of_yields hyields fun _ h => h] at hstored
  refine ⟨τ, hperforms.runs, hfills.outer_eq, ?_, ?_, value, hwrites, hstored⟩
  · intro x hx
    exact hfills.lookup_eq x (by simp [names, known, hx])
  · intro x hx
    exact hfills.lookup_eq x (hmentioned x (.inr hx))

/-- Two zero rows, the position of the second one, and a dynamic value in an outer block, where a
local has a name that the code gives to one of its own. -/
def slots : State Nat Nat Unit where
  block := [("outs", 1), ("i", 2)]
  outer := [[("v", 0), ("xLenIdx", 2)]]
  heap := [.dynamic 2, .array (List.replicate 2 (.record [⟨"Len", .slice none⟩])), .atom (.int 1)]
  world := ()

theorem eq_of_reaches_slots {cell : Nat} (h : slots.Reaches 0 cell) : cell = 0 := by
  induction h with
  | start => rfl
  | @refers q cell _ hrefers ih =>
    have hread : slots.heap.read q = Value.get q.path (.dynamic 2) := by
      rw [Heap.read, ih]
      rfl
    cases hpath : q.path with
    | nil => simp [hread, hpath, Value.get] at hrefers
    | cons selector path =>
      cases selector <;> simp [hread, hpath, Value.get, Value.select] at hrefers

def slotLayout : Layout :=
  .record (.named "Row")
    [⟨"Len", .sequence (.sequence (.named "int") .dynamic) (.scalar (.named "int") .int) .dynamic⟩]

end AliasTable

end Unmarshal
