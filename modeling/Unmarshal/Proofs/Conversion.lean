import Unmarshal.Proofs.Expansion
import Unmarshal.Proofs.Execution.Entry

/-!
# Conversion of arguments

The value that an argument should have, by recursion on the expanded shape of its parameter, and
the theorem that the code for a parameter list computes it. The accessors of the host are taken as
functions; nothing else is known about its values.
-/
namespace Unmarshal

/-- The dynamic values of a host: what their accessors answer, and the rounding of its
floating-point numbers to single precision. -/
structure Host (δ φ : Type) where
  bool : δ → Bool
  text : δ → String
  int : δ → Int
  float : δ → φ
  kind : δ → Kind
  length : δ → Nat
  property : δ → String → δ
  element : δ → Int → δ
  zeroFloat : φ
  single : φ → φ

namespace Host

variable {δ φ : Type} (host : Host δ φ)

def answer : Accessor → δ → List (Value δ φ) → Except Trap (Value δ φ)
  | .bool, d, [] => .ok (.atom (.bool (host.bool d)))
  | .string, d, [] => .ok (.atom (.text (host.text d)))
  | .int, d, [] => .ok (.atom (.int (host.int d)))
  | .float, d, [] => .ok (.atom (.float (host.float d)))
  | .type, d, [] => .ok (.kind (host.kind d))
  | .length, d, [] => .ok (.atom (.int (host.length d)))
  | .get, d, [.atom (.text name)] => .ok (.dynamic (host.property d name))
  | .index, d, [.atom (.int position)] => .ok (.dynamic (host.element d position))
  | _, _, _ => .error .stuck

/-- The machine that runs code over the values of a host. -/
def machine (table : AliasTable) : Machine δ φ Unit where
  types := table
  ask accessor d args _ := (host.answer accessor d args).map fun value => (value, ())
  zeroFloat := host.zeroFloat
  single := host.single

/-- The scalar that a dynamic value is read as. -/
def scalar (type : Scalar) (d : δ) : Atom φ :=
  match type with
  | .bool => .bool (host.bool d)
  | .string => .text (host.text d)
  | .float32 => .float (host.single (host.float d))
  | .float64 => .float (host.float d)
  | type => .int (type.wrap (host.int d))

mutual

/-- The native value that a dynamic value is converted to. An expanded shape has scalars for names
only; any other name would convert to nothing. -/
def convert : Shape → δ → Native φ
  | .named name, d =>
    match Scalar.ofName? name with
    | some type => .atom (host.scalar type d)
    | none => .absent
  | .optional pointee, d =>
    if (host.kind d).isPresent then .pointer (convert pointee d) else .absent
  | .sequence elem (.fixed length), d =>
    .array ((List.range length.toNat).map fun i : Nat => convert elem (host.element d i))
  | .sequence elem .dynamic, d =>
    .slice ((List.range (host.length d)).map fun i : Nat => convert elem (host.element d i))
  | .record fields, d => .record (convertFields fields d)

def convertFields : List (Field Shape) → δ → List (Field (Native φ))
  | [], _ => []
  | ⟨name, type⟩ :: fields, d =>
    ⟨name, convert type (host.property d name)⟩ :: convertFields fields d

end

variable {host} {table : AliasTable} {D : δ → Prop}

theorem answered_iff {accessor : Accessor} {args : List (Value δ φ)} {P : Value δ φ → Prop} :
    (host.machine table).Answered D accessor args P ↔
      ∀ d, D d → ∃ value, host.answer accessor d args = .ok value ∧ P value := by
  unfold Machine.Answered
  refine forall_congr' fun d => forall_congr' fun _ => ?_
  cases h : host.answer accessor d args <;> simp [machine, h, Except.map]

theorem answers_iff {accessor : Accessor} {args : List (Value δ φ)} {value : Value δ φ} :
    (host.machine table).Answers D accessor args value ↔
      ∃ d, D d ∧ host.answer accessor d args = .ok value := by
  unfold Machine.Answers
  refine exists_congr fun d => ?_
  cases h : host.answer accessor d args <;> simp [machine, h, Except.map]

theorem readable (layout : Layout) (D : δ → Prop) : (host.machine table).Readable layout D := by
  induction layout using Layout.induction generalizing D with
  | scalar declared type =>
    refine .scalar (answered_iff.mpr fun d _ => ?_)
    cases hread : type.access with
    | bool => exact ⟨_, rfl, _, rfl, rfl⟩
    | string => exact ⟨_, rfl, _, rfl, rfl⟩
    | int => exact ⟨_, rfl, _, rfl, rfl⟩
    | float => exact ⟨_, rfl, _, rfl, rfl⟩
  | optional declared pointee ih =>
    exact .optional (answered_iff.mpr fun d _ => ⟨_, rfl, _, rfl⟩) fun _ _ => ih D
  | sequence declared elem extent ih =>
    have helem (i : Nat) : (host.machine table).HasPart D .index [.atom (.int i)] :=
      answered_iff.mpr fun d _ => ⟨_, rfl, _, rfl⟩
    cases extent with
    | fixed length => exact .array (fun i _ => helem i) fun i _ => ih _
    | dynamic =>
      exact .slice (answered_iff.mpr fun d _ => ⟨_, rfl, _, rfl⟩) (fun _ _ i _ => helem i)
        fun _ _ i _ => ih _
  | record declared fields ih =>
    exact .record (fun f _ => answered_iff.mpr fun d _ => ⟨_, rfl, _, rfl⟩) fun f hf => ih f hf _

theorem narrow_scalar {type : Scalar} {d : δ} {value : Atom φ}
    (h : host.answer type.access.accessor d [] = .ok (.atom value)) :
    (host.machine table).narrow type value = host.scalar type d := by
  cases type <;> cases h <;> rfl

private theorem elem_eq {d : δ} (hD : ∀ e, D e → e = d) {i : Nat} {e : δ}
    (h : (host.machine table).Elem D i e) : e = host.element d i := by
  obtain ⟨whole, hwhole, hanswer⟩ := answers_iff.mp h
  rw [hD whole hwhole] at hanswer
  simpa [answer] using hanswer.symm

private theorem property_eq {d : δ} (hD : ∀ e, D e → e = d) {name : String} {e : δ}
    (h : (host.machine table).Property D name e) : e = host.property d name := by
  obtain ⟨whole, hwhole, hanswer⟩ := answers_iff.mp h
  rw [hD whole hwhole] at hanswer
  simpa [answer] using hanswer.symm

private theorem elems_eq {ts : List (Native φ)} {n : Nat} {elem : Shape} {d : δ}
    (hlength : ts.length = n)
    (h : ∀ (i : Nat) t, ts[i]? = some t → t = host.convert elem (host.element d i)) :
    ts = (List.range n).map fun i : Nat => host.convert elem (host.element d i) := by
  apply List.ext_getElem (by simp [hlength])
  intro i hi _
  simp [h i ts[i] (List.getElem?_eq_getElem hi)]

private theorem fields_eq {fields : List (Field Layout)} {ts : List (Field (Native φ))} {d : δ}
    (hnames : fields.map Field.name = ts.map Field.name)
    (h : ∀ p ∈ fields.zip ts,
      p.2.type = host.convert p.1.type.expanded (host.property d p.1.name)) :
    ts = host.convertFields (Layout.expandedFields fields) d := by
  induction fields generalizing ts with
  | nil => simpa [Layout.expandedFields, convertFields] using hnames
  | cons f fields ih =>
    cases ts with
    | nil => simp at hnames
    | cons t ts =>
      obtain ⟨name, type⟩ := f
      obtain ⟨other, value⟩ := t
      simp only [List.map_cons, List.cons.injEq] at hnames
      have hvalue : value = _ := h (⟨name, type⟩, ⟨other, value⟩) (by simp)
      have hrest := ih hnames.2 fun p hp => h p (by simp [hp])
      simp [Layout.expandedFields, convertFields, hnames.1, hvalue, ← hrest]

/-- What a conversion may yield for one dynamic value is what the value converts to. -/
theorem eq_convert_of_yields {layout : Layout} {t : Native φ} {d : δ}
    (h : (host.machine table).Yields layout D t) (hD : ∀ e, D e → e = d) :
    t = host.convert layout.expanded d := by
  induction h generalizing d with
  | scalar h =>
    obtain ⟨e, he, hanswer⟩ := answers_iff.mp h
    rw [hD e he] at hanswer
    simp only [Layout.expanded, convert, Scalar.ofName?_name, narrow_scalar hanswer]
  | @absent _ _ _ kind hkind =>
    obtain ⟨e, he, hanswer⟩ := answers_iff.mp hkind
    rw [hD e he] at hanswer
    have hvalue : host.kind d = .absent kind := by simpa [answer] using hanswer
    simp [Layout.expanded, convert, hvalue, Kind.isPresent]
  | @present _ _ _ tag _ hkind _ ih =>
    obtain ⟨e, he, hanswer⟩ := answers_iff.mp hkind
    rw [hD e he] at hanswer
    have hvalue : host.kind d = .present tag := by simpa [answer] using hanswer
    simp [Layout.expanded, convert, hvalue, Kind.isPresent, ih hD]
  | array hlength _ ih =>
    rw [Layout.expanded, convert, elems_eq hlength fun i t ht => ih i t ht fun _ => elem_eq hD]
  | @slice _ _ _ ts hlength _ ih =>
    obtain ⟨e, he, hanswer⟩ := answers_iff.mp hlength
    rw [hD e he] at hanswer
    have hcount : ts.length = host.length d := by
      have hcast : (host.length d : Int) = ts.length := by simpa [answer] using hanswer
      omega
    rw [Layout.expanded, convert, elems_eq hcount fun i t ht => ih i t ht fun _ => elem_eq hD]
  | record hnames _ ih =>
    rw [Layout.expanded, convert, fields_eq hnames fun p hp => ih p hp fun _ => property_eq hD]

end Host

/-- The frame in which converted code starts: the argument list is the only local, and the dynamic
values are in memory behind it. -/
def State.start {δ φ : Type} (args : String) (inputs : List δ) : State δ φ Unit where
  block := []
  outer := [[(args, 0)]]
  heap := [.slice (some 1), .array (inputs.map .dynamic)]
  world := ()

namespace AliasTable

variable {δ φ : Type} {table : AliasTable} {options : Options}

/-- The code for a parameter list runs to its end, and then every argument evaluates to what its
dynamic value converts to by the expanded shape of its parameter, stored in new cells. -/
theorem resolveArguments_converts (host : Host δ φ) {params : List Param} {arguments : Arguments}
    (hkindRuntime : options.kindVar ≠ options.runtime) (hargsKind : options.args ≠ options.kindVar)
    (hargsRuntime : options.args ≠ options.runtime) (htable : table.EveryRecord List.Nodup)
    (hparams : ∀ param ∈ params, param.shape.EveryRecord List.Nodup)
    (h : table.resolveArguments options params = .ok arguments) {inputs : List δ}
    (hinputs : params.length ≤ inputs.length) :
    ∃ σ, (host.machine table).Runs arguments.code (.start options.args inputs) σ ∧
      arguments.values.length = params.length ∧
      ∀ (i : Nat) param input value, params[i]? = some param → inputs[i]? = some input →
        arguments.values[i]? = some value →
        ∃ shape v, table.Expands param.shape shape ∧
          (host.machine table).eval value σ = .ok (v, σ) ∧
          (host.convert shape input).Stored σ.heap 2 v := by
  obtain ⟨σ, names, hperforms, hlength, hdelivers⟩ :=
    Machine.resolveArguments_performs (M := host.machine table) hkindRuntime hargsKind
      hargsRuntime h
      (fun param hparam _ hunfold => hunfold.everyRecord htable (hparams param hparam)) hinputs
      fun _ _ _ _ _ => Host.readable _ _
  refine ⟨σ, hperforms.runs, hlength, fun i param input value hparam hinput hvalue => ?_⟩
  obtain ⟨layout, hunfold, hdelivered⟩ := hdelivers i param value hparam hvalue
  obtain ⟨t, v, world, heval, hyields, hstored⟩ := hdelivered σ (.refl σ)
  have hconvert := Host.eq_convert_of_yields hyields (d := input) (by
    intro e he
    rw [hinput] at he
    exact (Option.some.inj he).symm)
  rw [hconvert] at hstored
  exact ⟨_, v, hunfold.expands, heval, hstored⟩

/-- A host of numbers, of which zero is absent, with at most two elements each. -/
def numbers : Host Nat Nat where
  bool d := d != 0
  text d := toString d
  int d := d
  float d := d
  kind d := if d = 0 then .absent .null else .present d
  length d := d % 3
  property d name := d + name.length
  element d position := d + position.toNat
  zeroFloat := 0
  single d := d

theorem expands_ints : rows.Expands (.sequence (.named "int") .dynamic)
    (.sequence (.named "int") .dynamic) := by
  have hint : Scalar.ofName? "int" = some .int := rfl
  exact .sequence (.scalar hint)

theorem expands_row : rows.Expands (.named "Row")
    (.record [⟨"Len", .sequence (.named "int") .dynamic⟩]) := by
  refine .entry (by decide) rfl (.record rfl ?_)
  intro p hp
  obtain rfl := List.mem_singleton.mp hp
  exact expands_ints

theorem resolveArguments_converts_drawRows : ∃ arguments σ,
    rows.resolveArguments {} drawRows.params = .ok arguments ∧
    (numbers.machine rows).Runs arguments.code (.start "args" [2, 1, 0]) σ ∧
    arguments.values = [.ident "a", .ident "aLen", .ident "arg2"] ∧
    (∃ v, (numbers.machine rows).eval (.ident "a") σ = .ok (v, σ) ∧ Native.Stored σ.heap 2
      (.record [⟨"Len", .slice [.atom (.int 5), .atom (.int 6)]⟩]) v) ∧
    (∃ v, (numbers.machine rows).eval (.ident "aLen") σ = .ok (v, σ) ∧
      Native.Stored σ.heap 2 (.slice [.atom (.int 1)]) v) ∧
    ∃ v, (numbers.machine rows).eval (.ident "arg2") σ = .ok (v, σ) ∧
      Native.Stored σ.heap 2 .absent v := by
  have hvalues : (Arguments.emit {} 0 drawLayouts (.reserved {})).values =
      [.ident "a", .ident "aLen", .ident "arg2"] := by cbv
  have hinputs : drawRows.params.length ≤ [2, 1, 0].length := by decide
  obtain ⟨σ, hrun, -, hconverted⟩ := resolveArguments_converts numbers (by decide) (by decide)
    (by decide) (everyRecord_rows (by decide)) everyRecord_drawRows resolveArguments_drawRows
    hinputs
  rw [hvalues] at hconverted
  refine ⟨_, σ, resolveArguments_drawRows, hrun, hvalues, ?_, ?_, ?_⟩
  · obtain ⟨shape, v, hshape, heval, hstored⟩ := hconverted 0 _ _ _ rfl rfl rfl
    rw [hshape.unique expands_row] at hstored
    exact ⟨v, heval, hstored⟩
  · obtain ⟨shape, v, hshape, heval, hstored⟩ := hconverted 1 _ _ _ rfl rfl rfl
    rw [hshape.unique expands_ints] at hstored
    exact ⟨v, heval, hstored⟩
  · obtain ⟨shape, v, hshape, heval, hstored⟩ := hconverted 2 _ _ _ rfl rfl rfl
    rw [hshape.unique (.optional expands_row)] at hstored
    exact ⟨v, heval, hstored⟩

end AliasTable

end Unmarshal
