import Unmarshal.Proofs.Execution.Entry

/-!
# Safety of bodies

Converted code dereferences no nil pointer, stays within its arrays and slices, and makes slices
with the sizes of the loops that fill them. Nothing is asked of the dynamic values but that they
answer in kind: the answers may depend on the world in any way, so that a question asked twice may
have two answers.
-/
namespace Unmarshal

namespace Machine

variable {δ φ ω : Type} {M : Machine δ φ ω}

/-- In every world a dynamic value answers all accessors, each with a value of its kind, and a
length is a natural number. -/
structure Responds (M : Machine δ φ ω) : Prop where
  scalar : ∀ (access : ScalarAccess) d world, ∃ value next,
    M.ask access.accessor d [] world = .ok (.atom value, next) ∧ value.access = access
  kind : ∀ d world, ∃ kind next, M.ask .type d [] world = .ok (.kind kind, next)
  length : ∀ d world, ∃ (n : Nat) (next : ω), M.ask .length d [] world = .ok (.atom (.int n), next)
  property : ∀ d name world, ∃ part next,
    M.ask .get d [.atom (.text name)] world = .ok (.dynamic part, next)
  element : ∀ d (position : Nat) world, ∃ part next,
    M.ask .index d [.atom (.int position)] world = .ok (.dynamic part, next)

/-- Values that answer in kind can be read as any layout. -/
theorem Responds.readable (h : M.Responds) (layout : Layout) (D : δ → Prop) :
    M.Readable layout D := by
  induction layout using Layout.induction generalizing D with
  | scalar declared type =>
    refine .scalar fun d _ world => ?_
    obtain ⟨value, next, hask, haccess⟩ := h.scalar type.access d world
    exact ⟨_, next, hask, value, rfl, haccess⟩
  | optional declared pointee ih =>
    refine .optional (fun d _ world => ?_) fun _ _ => ih D
    obtain ⟨kind, next, hask⟩ := h.kind d world
    exact ⟨_, next, hask, kind, rfl⟩
  | sequence declared elem extent ih =>
    have helem (i : Nat) : M.HasPart D .index [.atom (.int i)] := by
      intro d _ world
      obtain ⟨part, next, hask⟩ := h.element d i world
      exact ⟨_, next, hask, part, rfl⟩
    cases extent with
    | fixed length => exact .array (fun i _ => helem i) fun i _ => ih _
    | dynamic =>
      refine .slice (fun d _ world => ?_) (fun _ _ i _ => helem i) fun _ _ i _ => ih _
      obtain ⟨n, next, hask⟩ := h.length d world
      exact ⟨_, next, hask, n, rfl⟩
  | record declared fields ih =>
    refine .record (fun f _ d _ world => ?_) fun f hf => ih f hf _
    obtain ⟨part, next, hask⟩ := h.property d f.name world
    exact ⟨_, next, hask, part, rfl⟩

end Machine

namespace AliasTable

/-- The code for a parameter list runs to its end, and with less fuel than that takes, nothing stops
it but the want of fuel. Wherever it makes a slice, the bound of the loop that follows is the size
of the slice at each test of the loop. -/
theorem resolveArguments_safe {δ φ ω : Type} {M : Machine δ φ ω} {options : Options}
    {params : List Param} {arguments : Arguments}
    (hkindRuntime : options.kindVar ≠ options.runtime) (hargsKind : options.args ≠ options.kindVar)
    (hargsRuntime : options.args ≠ options.runtime) (hrecords : M.types.EveryRecord List.Nodup)
    (hparams : ∀ param ∈ params, param.shape.EveryRecord List.Nodup)
    (h : M.types.resolveArguments options params = .ok arguments) (hresponds : M.Responds)
    {inputs : List δ} (hinputs : params.length ≤ inputs.length) (world : ω) :
    (∃ σ, M.Runs arguments.code (.entry options.args inputs world) σ) ∧
    (∀ fuel trap, M.run fuel arguments.code (.entry options.args inputs world) = .error trap →
      trap = .outOfFuel) ∧
    M.Sized arguments.code (.entry options.args inputs world) := by
  obtain ⟨σ, -, hperforms, -⟩ := Machine.resolveArguments_performs hkindRuntime hargsKind
    hargsRuntime h
    (fun param hparam _ hunfold => hunfold.everyRecord hrecords (hparams param hparam)) hinputs
    fun _ _ layout _ _ => hresponds.readable layout _
  exact ⟨⟨σ, hperforms.runs⟩, fun _ _ htrap => hperforms.runs.outOfFuel_of_trap htrap,
    hperforms.sized⟩

/-- Dynamic values that answer by how many questions came before: a value that was absent is present
when it is asked again, and its length is zero, one, two and zero again. -/
def fickle (table : AliasTable) : Machine Nat Nat Nat where
  types := table
  ask accessor d args asked :=
    match accessor, args with
    | .bool, [] => .ok (.atom (.bool (asked % 2 == 0)), asked + 1)
    | .string, [] => .ok (.atom (.text (toString asked)), asked + 1)
    | .int, [] => .ok (.atom (.int (d - asked)), asked + 1)
    | .float, [] => .ok (.atom (.float asked), asked + 1)
    | .type, [] =>
      .ok (.kind (if asked % 2 = 0 then .absent .undefined else .present asked), asked + 1)
    | .length, [] => .ok (.atom (.int (asked % 3 : Nat)), asked + 1)
    | .get, [.atom (.text name)] => .ok (.dynamic (asked + name.length), asked + 1)
    | .index, [.atom (.int position)] => .ok (.dynamic (asked + position.toNat), asked + 1)
    | _, _ => .error .stuck
  zeroFloat := 0
  single value := value

theorem responds_fickle (table : AliasTable) : (fickle table).Responds where
  scalar access d asked := by
    cases access with
    | bool => exact ⟨_, _, rfl, rfl⟩
    | string => exact ⟨_, _, rfl, rfl⟩
    | int => exact ⟨_, _, rfl, rfl⟩
    | float => exact ⟨_, _, rfl, rfl⟩
  kind d asked := ⟨_, _, rfl⟩
  length d asked := ⟨_, _, rfl⟩
  property d name asked := ⟨_, _, rfl⟩
  element d position asked := ⟨_, _, rfl⟩

theorem resolveArguments_safe_drawRows : ∃ arguments,
    rows.resolveArguments {} drawRows.params = .ok arguments ∧
    (∃ σ, (fickle rows).Runs arguments.code (.entry "args" [7, 8, 9] 2) σ) ∧
    (∀ fuel trap, (fickle rows).run fuel arguments.code (.entry "args" [7, 8, 9] 2) = .error trap →
      trap = .outOfFuel) ∧
    (fickle rows).Sized arguments.code (.entry "args" [7, 8, 9] 2) := by
  have hinputs : drawRows.params.length ≤ [7, 8, 9].length := by decide
  exact ⟨_, resolveArguments_drawRows, resolveArguments_safe (M := fickle rows) (by decide)
    (by decide) (by decide) (everyRecord_rows (by decide)) everyRecord_drawRows
    resolveArguments_drawRows (responds_fickle rows) hinputs 2⟩

end AliasTable

end Unmarshal
