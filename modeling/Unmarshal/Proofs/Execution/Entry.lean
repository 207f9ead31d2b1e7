import Unmarshal.Proofs.Execution.Binding

/-!
# Entering a body

The frame in which converted code starts, and the run of the code for a whole parameter list from
there, on any machine whose dynamic values answer what the layouts of the parameters ask.
-/
namespace Unmarshal

variable {δ φ ω : Type}

/-- The argument list is the only local, and the dynamic values are in memory behind it. -/
def State.entry (args : String) (inputs : List δ) (world : ω) : State δ φ ω where
  block := []
  outer := [[(args, 0)]]
  heap := [.slice (some 1), .array (inputs.map .dynamic)]
  world := world

variable {options : Options} {inputs : List δ} {world : ω}

theorem State.ready_entry (hargs : options.args ≠ options.runtime) :
    (State.entry options.args inputs world : State δ φ ω).Ready options (.reserved options) := by
  refine ⟨fun _ hname => absurd rfl hname, by simp [Names.reserved], by simp [Names.reserved], ?_⟩
  simp [State.lookup, State.entry, List.lookup_cons, beq_eq_false_iff_ne.mpr hargs.symm]

namespace Machine

variable {M : Machine δ φ ω}

/-- While old memory is kept, the argument list has the dynamic values that it started with. -/
theorem supplies_entry (hargs : options.args ≠ options.kindVar) {i : Nat} (hi : i < inputs.length) :
    M.Supplies options (.reserved options) (.index (.ident options.args) (.int i))
      (fun d => inputs[i]? = some d) (State.entry options.args inputs world) := by
  intro τ hτ
  have hlookup : τ.lookup options.args = some 0 := by
    rw [hτ.lookup_eq options.args (by simp [Names.reserved]) hargs]
    simp [State.lookup, State.entry]
  have hlist : τ.heap.read ⟨0, []⟩ = some (.slice (some 1)) := by
    rw [Heap.read_cell, hτ.cells 0 (by simp [State.entry])]
    rfl
  have hvalues : τ.heap.read ⟨1, []⟩ = some (.array (inputs.map .dynamic)) := by
    rw [Heap.read_cell, hτ.cells 1 (by simp [State.entry])]
    rfl
  have hvalue : τ.heap.read ((⟨1, []⟩ : Place).sub (.elem i)) = some (.dynamic inputs[i]) := by
    rw [Heap.read_sub, hvalues]
    simp [Value.select, hi]
  exact ⟨inputs[i], τ.world, List.getElem?_eq_getElem hi, eval_index (place_ident hlookup)
    (by rw [eval]) (State.element_slice hlist hvalues (by simpa)) hvalue⟩

/-- The code for a parameter list runs to its end, and then every argument is delivered. -/
theorem resolveArguments_performs {params : List Param} {arguments : Arguments}
    (hkindRuntime : options.kindVar ≠ options.runtime) (hargsKind : options.args ≠ options.kindVar)
    (hargsRuntime : options.args ≠ options.runtime)
    (h : M.types.resolveArguments options params = .ok arguments)
    (hdistinct : ∀ param ∈ params, ∀ layout, M.types.Unfolds param.shape layout →
      layout.EveryRecord List.Nodup)
    (hinputs : params.length ≤ inputs.length)
    (hreadable : ∀ (i : Nat) param layout, params[i]? = some param →
      M.types.Unfolds param.shape layout → M.Readable layout fun d => inputs[i]? = some d) :
    ∃ τ names, M.Performs arguments.code (.entry options.args inputs world) τ ∧
      arguments.values.length = params.length ∧
      ∀ (i : Nat) param value, params[i]? = some param → arguments.values[i]? = some value →
        ∃ layout, M.types.Unfolds param.shape layout ∧
          M.Delivers options names value layout (fun d => inputs[i]? = some d) 2 τ := by
  obtain ⟨layouts, hlayouts, rfl⟩ := AliasTable.resolveArguments_eq_ok_iff.mp h
  obtain ⟨hlength, hunfold⟩ := AliasTable.layoutParams_ok hlayouts
  obtain ⟨τ, hperforms, -, hvalues, hdelivers⟩ := emit_binds (M := M)
    (D := fun (i : Nat) d => inputs[i]? = some d) (σ := .entry options.args inputs world)
    hkindRuntime
    (fun f hf => by
      obtain ⟨param, hparam, -, -, hunfold⟩ := AliasTable.mem_layoutParams hlayouts f hf
      exact hdistinct param hparam f.type hunfold)
    (AliasTable.unfolds_layoutParams hlayouts) 0 (State.ready_entry hargsRuntime)
    (fun i _ hi => supplies_entry hargsKind (by omega))
    (fun i f hf => by
      have hi := (List.getElem?_eq_some_iff.mp hf).1
      have hparam := List.getElem?_eq_getElem (hlength ▸ hi)
      rw [Nat.zero_add]
      exact hreadable i _ _ hparam (hunfold i f _ hf hparam).2)
  refine ⟨τ, Arguments.namesAfter options 0 layouts (.reserved options), hperforms,
    by rw [hvalues, hlength], fun i param value hparam hvalue => ?_⟩
  have hi := (List.getElem?_eq_some_iff.mp hparam).1
  have hf := List.getElem?_eq_getElem (hlength ▸ hi)
  have hvalue := hdelivers i _ value hf hvalue
  rw [Nat.zero_add] at hvalue
  exact ⟨_, (hunfold i _ param hf hparam).2, hvalue⟩

end Machine

end Unmarshal
