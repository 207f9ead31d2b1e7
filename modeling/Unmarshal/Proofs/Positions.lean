import Unmarshal.Proofs.LocalNames
import Unmarshal.Proofs.Writes

/-!
# Positions of arguments

The code of a call falls into one segment for each parameter. A segment reads its own position of
the argument list, declares every other name that it mentions, and writes to its own storage; so
nothing passes between parameters, although they share one supply of names.
-/
namespace Unmarshal

namespace Expr

mutual

/-- The names that stand as expressions of their own outside of `list[position]`. -/
@[simp] def identsBeside (list : String) (position : Nat) : Expr → List String
  | .index (.ident name) (.int i) => if name = list ∧ i = position then [] else [name]
  | .ident name => [name]
  | .int _ | .str _ | .absent _ _ | .new _ | .composite _ => []
  | .access value _ args => identsBeside list position value ++ allIdentsBeside list position args
  | .call callee args => identsBeside list position callee ++ allIdentsBeside list position args
  | .cast _ value => identsBeside list position value
  | .field base _ => identsBeside list position base
  | .index base offset => identsBeside list position base ++ identsBeside list position offset
  | .deref pointer => identsBeside list position pointer
  | .not operand => identsBeside list position operand
  | .binary _ left right => identsBeside list position left ++ identsBeside list position right
  | .make _ length => identsBeside list position length

@[simp] def allIdentsBeside (list : String) (position : Nat) : List Expr → List String
  | [] => []
  | e :: es => identsBeside list position e ++ allIdentsBeside list position es

end

/-- The argument list occurs only as `args[position]`, and every other name is a known one. -/
def Positional (options : Options) (position : Nat) (known : List String) (e : Expr) : Prop :=
  ∀ x ∈ e.identsBeside options.args position, x ≠ options.args ∧ x ∈ known

namespace Positional

variable {options : Options} {position : Nat} {known : List String} {e : Expr}

theorem argument (options : Options) (position : Nat) (known : List String) :
    (Expr.index (.ident options.args) (.int position)).Positional options position known := by
  simp [Positional]

theorem ident {x : String} (h : x ≠ options.args ∧ x ∈ known) :
    (Expr.ident x).Positional options position known := by
  simpa [Positional] using h

theorem ask (h : e.Positional options position known) (accessor : Accessor) :
    (e.ask accessor).Positional options position known := by
  simpa [Positional, Expr.ask] using h

theorem property (h : e.Positional options position known) (name : String) :
    (e.property name).Positional options position known := by
  simpa [Positional, Expr.property] using h

theorem element (h : e.Positional options position known) {counter : String}
    (hcounter : counter ≠ options.args ∧ counter ∈ known) :
    (e.element counter).Positional options position known := by
  simp only [Positional, Expr.element, identsBeside, allIdentsBeside, List.append_nil]
  intro x hx
  rcases List.mem_append.mp hx with hx | hx
  · exact h x hx
  · rw [List.mem_singleton] at hx
    rwa [hx]

theorem read (h : e.Positional options position known) (type : Scalar) :
    (type.read e).Positional options position known := by
  unfold Scalar.read
  cases type.cast? with
  | none => exact h.ask type.access.accessor
  | some name => simpa [Positional] using h.ask type.access.accessor

theorem field (h : e.Positional options position known) (name : String) :
    (Expr.field e name).Positional options position known := by
  simpa [Positional] using h

theorem deref (h : e.Positional options position known) :
    (Expr.deref e).Positional options position known := by
  simpa [Positional] using h

theorem index (h : e.Positional options position known) {counter : String}
    (hcounter : counter ≠ options.args ∧ counter ∈ known) :
    (Expr.index e (.ident counter)).Positional options position known := by
  simp only [Positional, identsBeside]
  intro x hx
  rcases List.mem_append.mp hx with hx | hx
  · exact h x hx
  · rw [List.mem_singleton] at hx
    rwa [hx]

end Positional

end Expr

namespace Stmt

mutual

/-- Every name in a statement is one of `locals`, whether it is declared, read or assigned, apart
from `args[position]` and from the variable of a guard in the guard. -/
def Positional (options : Options) (position : Nat) (locals : List String) : Stmt → Prop
  | .declare name _ => name ∈ locals
  | .define name value => name ∈ locals ∧ value.Positional options position locals
  | .assign target value =>
    target.Positional options position locals ∧ value.Positional options position locals
  | .branch none condition body =>
    condition.Positional options position locals ∧ AllPositional options position locals body
  | .branch (some init) condition body =>
    (∃ value, init = .define options.kindVar value ∧ value.Positional options position locals) ∧
      condition.Positional options position (options.kindVar :: locals) ∧
      AllPositional options position locals body
  | .loop counter bound body =>
    counter ∈ locals ∧ bound.Positional options position locals ∧
      AllPositional options position locals body

def AllPositional (options : Options) (position : Nat) (locals : List String) : List Stmt → Prop
  | [] => True
  | s :: rest => Positional options position locals s ∧ AllPositional options position locals rest

end

theorem allPositional_append {options : Options} {position : Nat} {locals : List String}
    {first second : List Stmt} :
    AllPositional options position locals (first ++ second) ↔
      AllPositional options position locals first ∧
        AllPositional options position locals second := by
  induction first with
  | nil => simp [AllPositional]
  | cons s rest ih => simp [AllPositional, ih, and_assoc]

end Stmt

namespace Layout

variable {options : Options} {position : Nat} {known : List String}

/-- Whatever fills a place of the layout is positional where its source and its target are and its
own locals are known. -/
def KeepsPosition (options : Options) (position : Nat) (known : List String) (layout : Layout) :
    Prop :=
  ∀ (base : String) (source target : Expr) (names : Names),
    source.Positional options position known → target.Positional options position known →
    (∀ x ∈ Stmt.allLocals (layout.fill options base source target names).1,
      x ≠ options.args ∧ x ∈ known) →
    Stmt.AllPositional options position known (layout.fill options base source target names).1

private theorem fillFields_positional {fields : List (Field Layout)}
    (ih : ∀ f ∈ fields, f.type.KeepsPosition options position known) {base : String}
    {source target : Expr} {names : Names} (hsource : source.Positional options position known)
    (htarget : target.Positional options position known)
    (hlocals : ∀ x ∈ Stmt.allLocals (fillFields options base source target fields names).1,
      x ≠ options.args ∧ x ∈ known) :
    Stmt.AllPositional options position known
      (fillFields options base source target fields names).1 := by
  induction fields generalizing names with
  | nil => trivial
  | cons f fields ihFields =>
    obtain ⟨name, type⟩ := f
    simp only [fillFields, Stmt.allLocals_append, List.forall_mem_append] at hlocals
    rw [fillFields, Stmt.allPositional_append]
    constructor
    · exact ih ⟨name, type⟩ (by simp) _ _ _ names (hsource.property name) (htarget.field name)
        hlocals.1
    · exact ihFields (fun f hf => ih f (by simp [hf])) hlocals.2

/-- A guard asks the kind of its source and tests nothing but the variable that holds it. -/
theorem whenPresent_positional {source : Expr} {body : List Stmt}
    (hkind : options.kindVar ≠ options.args) (hsource : source.Positional options position known)
    (hbody : Stmt.AllPositional options position known body) :
    (options.whenPresent source body).Positional options position known := by
  refine ⟨⟨_, rfl, hsource.ask .type⟩, ?_, hbody⟩
  simpa [Expr.Positional, Options.isKind] using hkind

theorem fill_positional (hkind : options.kindVar ≠ options.args) (layout : Layout) :
    layout.KeepsPosition options position known := by
  induction layout using Layout.induction with
  | scalar declared type =>
    intro base source target names hsource htarget _
    exact ⟨⟨htarget, hsource.read type⟩, trivial⟩
  | optional declared pointee ih =>
    intro base source target names hsource htarget hlocals
    simp only [fill, Stmt.allLocals, Stmt.locals_whenPresent, Stmt.locals, List.append_nil,
      List.nil_append] at hlocals
    refine ⟨whenPresent_positional hkind hsource ⟨⟨htarget, ?_⟩, ?_⟩, trivial⟩
    · simp [Expr.Positional]
    · exact ih _ _ _ names hsource htarget.deref hlocals
  | sequence declared elem extent ih =>
    intro base source target names hsource htarget hlocals
    cases extent with
    | fixed length =>
      simp only [fill, Stmt.allLocals, Stmt.locals, List.append_nil,
        List.forall_mem_cons] at hlocals
      obtain ⟨hcounter, hlocals⟩ := hlocals
      refine ⟨⟨hcounter.2, ?_, ?_⟩, trivial⟩
      · simp [Expr.Positional]
      · exact ih _ _ _ _ (hsource.element hcounter) (htarget.index hcounter) hlocals
    | dynamic =>
      simp only [fill, Stmt.allLocals, Stmt.locals, List.append_nil, List.nil_append,
        List.cons_append, List.forall_mem_cons] at hlocals
      obtain ⟨hlength, hcounter, hlocals⟩ := hlocals
      refine ⟨⟨hlength.2, hsource.ask .length⟩, ⟨htarget, ?_⟩, ⟨hcounter.2, .ident hlength, ?_⟩,
        trivial⟩
      · simpa [Expr.Positional] using hlength
      · exact ih _ _ _ _ (hsource.element hcounter) (htarget.index hcounter) hlocals
  | record declared fields ih =>
    intro base source target names hsource htarget hlocals
    exact fillFields_positional ih hsource htarget hlocals

/-- Binding a value mentions its source and the locals that it declares. -/
theorem bind_positional (hkind : options.kindVar ≠ options.args) (layout : Layout) (base : String)
    {source : Expr} (hsource : source.Positional options position known) (names : Names)
    (hlocals : ∀ x ∈ Stmt.allLocals (layout.bind options base source names).1.code,
      x ≠ options.args ∧ x ∈ known) :
    (layout.bind options base source names).1.value.Positional options position known ∧
      Stmt.AllPositional options position known (layout.bind options base source names).1.code := by
  cases layout with
  | scalar declared type => exact ⟨hsource.read type, trivial⟩
  | optional | record =>
    simp only [bind, Stmt.allLocals, Stmt.locals, List.cons_append, List.nil_append,
      List.forall_mem_cons] at hlocals
    obtain ⟨hplace, hlocals⟩ := hlocals
    have hfill := fill_positional hkind _ _ source _ _ hsource (.ident hplace) hlocals
    refine ⟨.ident hplace, ?_, hfill⟩
    simp [Stmt.Positional, Expr.Positional, hplace.2]
  | sequence declared elem extent =>
    cases extent with
    | fixed length =>
      simp only [bind, Stmt.allLocals, Stmt.locals, List.cons_append, List.nil_append,
        List.forall_mem_cons] at hlocals
      obtain ⟨hplace, hlocals⟩ := hlocals
      have hfill := fill_positional hkind _ _ source _ _ hsource (.ident hplace) hlocals
      exact ⟨.ident hplace, hplace.2, hfill⟩
    | dynamic =>
      simp only [bind, Stmt.allLocals, Stmt.locals, List.append_nil, List.nil_append,
        List.cons_append, List.forall_mem_cons] at hlocals
      obtain ⟨hlength, hplace, hcounter, hlocals⟩ := hlocals
      have hfill := fill_positional hkind elem _ _ _ _ (hsource.element hcounter)
        ((Expr.Positional.ident hplace).index hcounter) hlocals
      refine ⟨.ident hplace, ⟨hlength.2, hsource.ask .length⟩, ⟨hplace.2, ?_⟩,
        ⟨hcounter.2, .ident hlength, hfill⟩, trivial⟩
      simpa [Expr.Positional] using hlength

end Layout

/-- A segment of the code of a call that keeps to its own position of the argument list, to the
locals that it declares, and to the storage of its value. -/
structure Resolution.KeepsTo (options : Options) (position : Nat) (part : Resolution) : Prop where
  value : part.value.Positional options position (Stmt.allLocals part.code)
  code : Stmt.AllPositional options position (Stmt.allLocals part.code) part.code
  storage : part.code = [] ∨ ∃ place, part.value = .ident place ∧ Stmt.Stores part.code place

theorem Layout.emit_keepsTo {options : Options} (hkind : options.kindVar ≠ options.args)
    (layout : Layout) (base : String) (position : Nat) {names : Names}
    (hargs : options.args ∈ names.used) :
    (layout.emit options base (.index (.ident options.args) (.int position)) none names).KeepsTo
      options position := by
  have hclaims := layout.bind_claims options base
    (.index (.ident options.args) (.int position)) names
  have hpositional := layout.bind_positional hkind base
    (.argument options position (Stmt.allLocals (layout.bind options base
      (.index (.ident options.args) (.int position)) names).1.code)) names
    fun x hx => ⟨fun heq => hclaims.fresh x hx (heq ▸ hargs), hx⟩
  exact ⟨hpositional.1, hpositional.2, layout.bind_stores base _ names⟩

namespace AliasTable

variable {table : AliasTable} {options : Options}

/-- Arguments keep their positions. The code of a call is one segment for each parameter, in the
order of the parameters, and so are its values. The segment at a position is what its parameter is
resolved to; there the argument list stands only indexed by the position, every other name is the
variable of a guard or a local that the segment declares, and everything is written to the storage
of the parameter. All locals are distinct, so no segment mentions a local of another. -/
theorem resolveArguments_positional {params : List Param} {arguments : Arguments}
    (hkind : options.kindVar ≠ options.args)
    (h : table.resolveArguments options params = .ok arguments) :
    arguments.values.length = params.length ∧ (Stmt.allLocals arguments.code).Nodup ∧
      ∃ parts : List Resolution, arguments.code = parts.flatMap Resolution.code ∧
        arguments.values = parts.map Resolution.value ∧ parts.length = params.length ∧
        ∀ (i : Nat) param part, params[i]? = some param → parts[i]? = some part →
          part.KeepsTo options i ∧
          ∃ names, table.resolveFrom names options (param.localName i) param.shape
            (.index (.ident options.args) (.int i)) none = .ok part := by
  obtain ⟨parts, hcode, hvalues, hlength, hparts⟩ := exists_parts_of_resolveArguments h
  refine ⟨?_, ?_, parts, hcode, hvalues, hlength, ?_⟩
  · rw [hvalues, List.length_map, hlength]
  · obtain ⟨layouts, -, rfl⟩ := resolveArguments_eq_ok_iff.mp h
    exact (Arguments.emit_claims options 0 layouts _).nodup
  · intro i param part hparam hpart
    obtain ⟨names, hclaims, hresolve⟩ := hparts i param part hparam hpart
    refine ⟨?_, names, hresolve⟩
    unfold resolveFrom at hresolve
    split at hresolve
    · next layout hl =>
      cases hresolve
      apply layout.emit_keepsTo hkind
      exact hclaims.mem_of_mem (by simp [Names.reserved])
    · cases hresolve

/-- The locals of the second parameter start from the names of the first, yet its segment mentions
its own ones only. -/
theorem resolveArguments_positional_drawRows : ∃ arguments,
    rows.resolveArguments {} drawRows.params = .ok arguments ∧ arguments.values.length = 3 ∧
    (Stmt.allLocals arguments.code).Nodup ∧
    ∃ parts : List Resolution, arguments.code = parts.flatMap Resolution.code ∧
      ∀ part, parts[1]? = some part → part.KeepsTo {} 1 := by
  obtain ⟨hlength, hdistinct, parts, hcode, -, -, hparts⟩ :=
    resolveArguments_positional (by decide) resolveArguments_drawRows
  exact ⟨_, resolveArguments_drawRows, hlength, hdistinct, parts, hcode,
    fun part hpart => (hparts 1 _ part rfl hpart).1⟩

end AliasTable

end Unmarshal
