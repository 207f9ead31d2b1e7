import Unmarshal.Proofs.Conversion
import Unmarshal.Proofs.Execution.Refinement

/-!
# Guarded access

Undefined and null have a kind, and no other answers. As long as they stand only where a shape is
optional, converted code asks them for nothing else: it runs on a host that refuses every other
question as it runs on one that does not.
-/
namespace Unmarshal

namespace Host

variable {δ φ : Type} (host : Host δ φ)

/-- The machine that stops with a trap when an absent value is asked for more than its kind. -/
def strict (refused : Trap) (table : AliasTable) : Machine δ φ Unit :=
  { host.machine table with
    ask := fun accessor d args world =>
      if (host.kind d).isPresent ∨ accessor = .type then
        (host.machine table).ask accessor d args world
      else .error refused }

mutual

/-- In a value and in the parts of it that a shape has, undefined and null occur only where the
shape is optional. -/
def Suits : Shape → δ → Prop
  | .named _, d => (host.kind d).isPresent
  | .optional pointee, d => (host.kind d).isPresent → Suits pointee d
  | .sequence elem (.fixed length), d =>
    (host.kind d).isPresent ∧ ∀ i < length.toNat, Suits elem (host.element d i)
  | .sequence elem .dynamic, d =>
    (host.kind d).isPresent ∧ ∀ i < host.length d, Suits elem (host.element d i)
  | .record fields, d => (host.kind d).isPresent ∧ SuitsFields fields d

def SuitsFields : List (Field Shape) → δ → Prop
  | [], _ => True
  | ⟨name, type⟩ :: fields, d => Suits type (host.property d name) ∧ SuitsFields fields d

end

variable {host} {refused : Trap} {table : AliasTable} {D : δ → Prop} {d : δ} {accessor : Accessor}
  {args : List (Value δ φ)}

theorem suitsFields_expanded {fields : List (Field Layout)} :
    host.SuitsFields (Layout.expandedFields fields) d ↔
      ∀ f ∈ fields, host.Suits f.type.expanded (host.property d f.name) := by
  induction fields with
  | nil => simp [Layout.expandedFields, SuitsFields]
  | cons f fields ih => simp [Layout.expandedFields, SuitsFields, ih]

theorem within_strict : (host.strict refused table).Within refused (host.machine table) where
  types := rfl
  zeroFloat := rfl
  single := rfl
  ask accessor d args world := by
    simp only [strict]
    split
    · exact .refl _
    · exact .inl rfl

theorem strict_answered (hD : ∀ e, D e → e = d)
    (hallowed : (host.kind d).isPresent ∨ accessor = .type) {value : Value δ φ}
    (hanswer : host.answer accessor d args = .ok value) {P : Value δ φ → Prop} (hP : P value) :
    (host.strict refused table).Answered D accessor args P := by
  intro e he world
  obtain rfl := hD e he
  exact ⟨value, (), by simp [strict, hallowed, machine, hanswer, Except.map], hP⟩

theorem answer_of_strict (hD : ∀ e, D e → e = d) {value : Value δ φ}
    (h : (host.strict refused table).Answers D accessor args value) :
    host.answer accessor d args = .ok value := by
  obtain ⟨e, world, next, he, hask⟩ := h
  obtain rfl := hD e he
  have hlenient := (within_strict.ask accessor e args world).ok hask
  cases hanswer : host.answer accessor e args with
  | error => simp [machine, hanswer, Except.map] at hlenient
  | ok answer => simpa [machine, hanswer, Except.map] using hlenient

/-- Converting a value that suits a layout asks nothing that is refused. -/
theorem strict_readable {layout : Layout} (hsuits : host.Suits layout.expanded d)
    (hD : ∀ e, D e → e = d) : (host.strict refused table).Readable layout D := by
  induction layout using Layout.induction generalizing D d with
  | scalar declared type =>
    simp only [Layout.expanded, Suits] at hsuits
    cases hread : type.access with
    | bool => exact .scalar (hread ▸ strict_answered hD (.inl hsuits) rfl ⟨_, rfl, rfl⟩)
    | string => exact .scalar (hread ▸ strict_answered hD (.inl hsuits) rfl ⟨_, rfl, rfl⟩)
    | int => exact .scalar (hread ▸ strict_answered hD (.inl hsuits) rfl ⟨_, rfl, rfl⟩)
    | float => exact .scalar (hread ▸ strict_answered hD (.inl hsuits) rfl ⟨_, rfl, rfl⟩)
  | optional declared pointee ih =>
    simp only [Layout.expanded, Suits] at hsuits
    refine .optional (strict_answered hD (.inr rfl) rfl ⟨_, rfl⟩) fun tag hanswer => ?_
    have hkind : host.kind d = .present tag := by simpa [answer] using answer_of_strict hD hanswer
    exact ih (hsuits (by simp [hkind, Kind.isPresent])) hD
  | sequence declared elem extent ih =>
    have hpart (hpresent : (host.kind d).isPresent) (i : Nat) :
        (host.strict refused table).HasPart D .index [.atom (.int i)] :=
      strict_answered hD (.inl hpresent) rfl ⟨_, rfl⟩
    have helem (i : Nat) e (he : (host.strict refused table).Elem D i e) :
        e = host.element d i := by
      simpa [answer] using (answer_of_strict hD he).symm
    cases extent with
    | fixed length =>
      obtain ⟨hpresent, helems⟩ := hsuits
      exact .array (fun i _ => hpart hpresent i) fun i hi => ih (helems i hi) (helem i)
    | dynamic =>
      obtain ⟨hpresent, helems⟩ := hsuits
      refine .slice (strict_answered hD (.inl hpresent) rfl ⟨_, rfl⟩)
        (fun _ _ i _ => hpart hpresent i) fun n hn i hi => ih (helems i ?_) (helem i)
      have hcount : (host.length d : Int) = n := by simpa [answer] using answer_of_strict hD hn
      omega
  | record declared fields ih =>
    obtain ⟨hpresent, hfields⟩ := hsuits
    rw [suitsFields_expanded] at hfields
    refine .record (fun f _ => strict_answered hD (.inl hpresent) rfl ⟨_, rfl⟩) fun f hf => ?_
    refine ih f hf (hfields f hf) fun e he => ?_
    simpa [answer] using (answer_of_strict hD he).symm

end Host

private theorem Machine.evalAll_of_forall {δ φ ω : Type} {M : Machine δ φ ω} {σ : State δ φ ω}
    {es : List Expr} (h : ∀ e ∈ es, ∃ v, M.eval e σ = .ok (v, σ)) :
    ∃ vs, M.evalAll es σ = .ok (vs, σ) := by
  induction es with
  | nil => exact ⟨[], by rw [evalAll]⟩
  | cons e es ih =>
    obtain ⟨v, hv⟩ := h e (by simp)
    obtain ⟨vs, hvs⟩ := ih fun e he => h e (by simp [he])
    exact ⟨v :: vs, by simp [evalAll, hv, hvs, bind, Except.bind, pure, Except.pure]⟩

namespace AliasTable

variable {δ φ : Type} {table : AliasTable} {options : Options}

/-- With inputs that suit the shapes of their parameters, the code runs to its end and the arguments
evaluate although every question to an absent value but that for its kind is refused, whatever the
trap; and this is the run on the host that refuses nothing. -/
theorem resolveArguments_guarded (host : Host δ φ) (refused : Trap) {params : List Param}
    {arguments : Arguments} (hkindRuntime : options.kindVar ≠ options.runtime)
    (hargsKind : options.args ≠ options.kindVar) (hargsRuntime : options.args ≠ options.runtime)
    (h : table.resolveArguments options params = .ok arguments) {inputs : List δ}
    (hinputs : params.length ≤ inputs.length)
    (hsuits : ∀ (i : Nat) param input, params[i]? = some param → inputs[i]? = some input →
      ∃ shape, table.Expands param.shape shape ∧ shape.EveryRecord List.Nodup ∧
        host.Suits shape input) :
    ∃ σ values,
      (host.strict refused table).Runs arguments.code (.start options.args inputs) σ ∧
      (host.strict refused table).evalAll arguments.values σ = .ok (values, σ) ∧
      (host.machine table).Runs arguments.code (.start options.args inputs) σ ∧
      (host.machine table).evalAll arguments.values σ = .ok (values, σ) := by
  have hinput {i : Nat} {param : Param} (hparam : params[i]? = some param) :
      ∃ input, inputs[i]? = some input := by
    have hi := (List.getElem?_eq_some_iff.mp hparam).1
    exact ⟨_, List.getElem?_eq_getElem (Nat.lt_of_lt_of_le hi hinputs)⟩
  obtain ⟨σ, names, hperforms, hlength, hdelivers⟩ :=
    Machine.resolveArguments_performs (M := host.strict refused table) hkindRuntime hargsKind
      hargsRuntime h
      (fun param hmem layout hunfold => by
        obtain ⟨i, hi, rfl⟩ := List.mem_iff_getElem.mp hmem
        obtain ⟨input, hget⟩ := hinput (List.getElem?_eq_getElem hi)
        obtain ⟨shape, hshape, hdistinct, -⟩ := hsuits i _ input (List.getElem?_eq_getElem hi) hget
        rw [hshape.unique hunfold.expands] at hdistinct
        exact Layout.everyRecord_expanded.mp hdistinct)
      hinputs
      (fun i param layout hparam hunfold => by
        obtain ⟨input, hget⟩ := hinput hparam
        obtain ⟨shape, hshape, -, hsuit⟩ := hsuits i param input hparam hget
        rw [hshape.unique hunfold.expands] at hsuit
        exact Host.strict_readable hsuit fun e he => Option.some.inj (he.symm.trans hget))
  have heach : ∀ value ∈ arguments.values, ∃ v,
      (host.strict refused table).eval value σ = .ok (v, σ) := by
    intro value hmem
    obtain ⟨i, hi, rfl⟩ := List.mem_iff_getElem.mp hmem
    have hparam := List.getElem?_eq_getElem (hlength ▸ hi)
    obtain ⟨layout, -, hdelivered⟩ := hdelivers i _ _ hparam (List.getElem?_eq_getElem hi)
    obtain ⟨t, v, world, heval, -⟩ := hdelivered σ (.refl σ)
    exact ⟨v, heval⟩
  obtain ⟨values, hvalues⟩ := Machine.evalAll_of_forall heach
  exact ⟨σ, values, hperforms.runs, hvalues, Host.within_strict.runs hperforms.runs,
    Host.within_strict.evalAll hvalues⟩

theorem resolveArguments_guarded_drawRows : ∃ arguments σ values,
    rows.resolveArguments {} drawRows.params = .ok arguments ∧
    (numbers.strict .stuck rows).Runs arguments.code (.start "args" [2, 1, 0]) σ ∧
    (numbers.strict .stuck rows).evalAll arguments.values σ = .ok (values, σ) ∧
    (numbers.machine rows).Runs arguments.code (.start "args" [2, 1, 0]) σ ∧
    (numbers.machine rows).evalAll arguments.values σ = .ok (values, σ) := by
  have hsuits : ∀ (i : Nat) param input, drawRows.params[i]? = some param →
      [2, 1, 0][i]? = some input → ∃ shape, rows.Expands param.shape shape ∧
        shape.EveryRecord List.Nodup ∧ numbers.Suits shape input := by
    intro i param input hparam hinput
    match i with
    | 0 =>
      cases hparam
      cases hinput
      refine ⟨_, expands_row, by simp [Shape.EveryRecord, Shape.EveryRecordOfFields], ?_⟩
      simp [Host.Suits, Host.SuitsFields, numbers, Kind.isPresent]
    | 1 =>
      cases hparam
      cases hinput
      refine ⟨_, expands_ints, trivial, ?_⟩
      simp [Host.Suits, numbers, Kind.isPresent]
    | 2 =>
      cases hparam
      cases hinput
      refine ⟨_, .optional expands_row,
        by simp [Shape.EveryRecord, Shape.EveryRecordOfFields], ?_⟩
      simp [Host.Suits, numbers, Kind.isPresent]
    | i + 3 => simp at hinput
  have hinputs : drawRows.params.length ≤ [2, 1, 0].length := by decide
  obtain ⟨σ, values, hguarded⟩ := resolveArguments_guarded numbers .stuck (by decide) (by decide)
    (by decide) resolveArguments_drawRows hinputs hsuits
  exact ⟨_, σ, values, resolveArguments_drawRows, hguarded⟩

end AliasTable

end Unmarshal
