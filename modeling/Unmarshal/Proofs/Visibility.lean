import Unmarshal.Proofs.Capture
import Unmarshal.Proofs.Freshness

/-!
# Names in scope

Every name in a generated body stands for the argument list, for the function that is called, for
the variable of a guard in the condition of that guard, or for a local that is in scope; and every
local is read where it is in scope. This is asked of the text of the code, so it covers bodies of
guards and loops that never run.
-/
namespace Unmarshal

namespace Expr

mutual

/-- The names that stand as expressions of their own, at any depth. -/
def idents : Expr → List String
  | .ident name => [name]
  | .int _ | .str _ | .absent _ _ | .new _ | .composite _ => []
  | .access value _ args => idents value ++ allIdents args
  | .call callee args => idents callee ++ allIdents args
  | .cast _ value => idents value
  | .field base _ => idents base
  | .index base position => idents base ++ idents position
  | .deref pointer => idents pointer
  | .not operand => idents operand
  | .binary _ left right => idents left ++ idents right
  | .make _ length => idents length

def allIdents : List Expr → List String
  | [] => []
  | e :: es => idents e ++ allIdents es

end

/-- The names that are read to find the target of an assignment. A local that is assigned as a
whole is not read. -/
def identsInTarget : Expr → List String
  | .ident _ => []
  | target => target.idents

@[simp] theorem idents_ask (source : Expr) (accessor : Accessor) :
    (source.ask accessor).idents = source.idents := by
  simp [ask, idents, allIdents]

@[simp] theorem idents_property (source : Expr) (name : String) :
    (source.property name).idents = source.idents := by
  simp [property, idents, allIdents]

@[simp] theorem idents_element (source : Expr) (counter : String) :
    (source.element counter).idents = source.idents ++ [counter] := by
  simp [element, idents, allIdents]

@[simp] theorem idents_read (type : Scalar) (source : Expr) :
    (type.read source).idents = source.idents := by
  unfold Scalar.read
  cases type.cast? <;> simp [idents]

theorem mem_allIdents {es : List Expr} {x : String} :
    x ∈ allIdents es ↔ ∃ e ∈ es, x ∈ e.idents := by
  induction es with
  | nil => simp [allIdents]
  | cons e es ih => simp [allIdents, ih]

end Expr

/-- With these locals in scope, the name stands for one of them, or for the argument list, which
none of them hides. -/
def Options.Knows (options : Options) (locals : List String) (x : String) : Prop :=
  x ≠ options.kindVar ∧ (x = options.args ↔ x ∉ locals)

/-- Every name in an expression is the argument list or a local in scope. -/
def Expr.Scoped (options : Options) (locals : List String) (e : Expr) : Prop :=
  ∀ x ∈ e.idents, options.Knows locals x

theorem Expr.scoped_of_idents_eq_nil {options : Options} {locals : List String} {e : Expr}
    (h : e.idents = []) : e.Scoped options locals := by
  intro x hx
  rw [h] at hx
  cases hx

namespace Stmt

mutual

/-- Every name in a statement is in scope. The variable of a guard counts in the condition of the
guard only, and a counter in the body of its loop. -/
def Scoped (options : Options) (locals : List String) : Stmt → Prop
  | .declare _ _ => True
  | .define _ value => value.Scoped options locals
  | .assign target value => target.Scoped options locals ∧ value.Scoped options locals
  | .branch none condition body =>
    condition.Scoped options locals ∧ AllScoped options locals body
  | .branch (some init) condition body =>
    init.introduced = [options.kindVar] ∧ Scoped options locals init ∧
      (∀ x ∈ condition.idents, x = options.kindVar ∨ options.Knows locals x) ∧
      AllScoped options locals body
  | .loop counter bound body =>
    bound.Scoped options locals ∧ AllScoped options (counter :: locals) body

def AllScoped (options : Options) (locals : List String) : List Stmt → Prop
  | [] => True
  | s :: rest => Scoped options locals s ∧ AllScoped options (s.introduced ++ locals) rest

end

mutual

/-- The names that a statement reads from the blocks around it. -/
def reads : Stmt → List String
  | .declare _ _ => []
  | .define _ value => value.idents
  | .assign target value => target.identsInTarget ++ value.idents
  | .branch none condition body => condition.idents ++ allReads [] body
  | .branch (some init) condition body =>
    reads init ++
      (condition.idents ++ allReads [] body).filter fun x => decide (x ∉ init.introduced)
  | .loop counter bound body =>
    (bound.idents ++ allReads [] body).filter fun x => decide (x ≠ counter)

/-- The names that the rest of a block reads from before it, where `later` is read at its end. -/
def allReads (later : List String) : List Stmt → List String
  | [] => later
  | s :: rest => reads s ++ (allReads later rest).filter fun x => decide (x ∉ s.introduced)

end

mutual

/-- Whatever a statement declares inside is read in its scope. The header of a loop compares its
counter with the bound. -/
def Used : Stmt → Prop
  | .declare _ _ | .define _ _ | .assign _ _ => True
  | .branch none _ body => AllUsed [] body
  | .branch (some init) condition body =>
    (∀ x ∈ init.introduced, x ∈ condition.idents ++ allReads [] body) ∧ AllUsed [] body
  | .loop counter bound body =>
    counter ∈ (Expr.binary .lt (.ident counter) bound).idents ∧ AllUsed [] body

/-- Every local of a block is read after its declaration, if only by `later`. -/
def AllUsed (later : List String) : List Stmt → Prop
  | [] => True
  | s :: rest => Used s ∧ (∀ x ∈ s.introduced, x ∈ allReads later rest) ∧ AllUsed later rest

end

section

variable {options : Options} {locals later : List String} {first second code : List Stmt}

theorem allScoped_append :
    AllScoped options locals (first ++ second) ↔
      AllScoped options locals first ∧ AllScoped options (scopeAfter locals first) second := by
  induction first generalizing locals with
  | nil => simp [AllScoped, scopeAfter]
  | cons s rest ih => simp [AllScoped, scopeAfter, ih, and_assoc]

theorem allReads_append :
    allReads later (first ++ second) = allReads (allReads later second) first := by
  induction first with
  | nil => rfl
  | cons s rest ih => simp [allReads, ih]

theorem allUsed_append :
    AllUsed later (first ++ second) ↔
      AllUsed (allReads later second) first ∧ AllUsed later second := by
  induction first with
  | nil => simp [AllUsed]
  | cons s rest ih => simp [AllUsed, allReads_append, ih, and_assoc]

theorem mem_scopeAfter {x : String} :
    x ∈ scopeAfter locals code ↔ x ∈ locals ∨ ∃ s ∈ code, x ∈ s.introduced := by
  induction code generalizing locals with
  | nil => simp [scopeAfter]
  | cons s rest ih =>
    rw [scopeAfter, ih]
    simp only [List.mem_append, List.exists_mem_cons_iff]
    grind

theorem mem_allLocals_of_introduced {s : Stmt} {x : String} (hs : s ∈ code)
    (hx : x ∈ s.introduced) : x ∈ allLocals code := by
  induction code with
  | nil => cases hs
  | cons t rest ih =>
    rw [allLocals, List.mem_append]
    rcases List.mem_cons.mp hs with rfl | hs
    · left
      cases s <;> simp_all [introduced, Stmt.locals]
    · exact .inr (ih hs)

/-- What is read at the end of a block is read from before it, unless the block declares it. -/
theorem mem_allReads_of_later {x : String} (hx : x ∈ later) (hnew : x ∉ allLocals code) :
    x ∈ allReads later code := by
  induction code with
  | nil => exact hx
  | cons s rest ih =>
    have hrest : x ∉ allLocals rest := fun h => hnew (List.mem_append_right _ h)
    have hs : x ∉ s.introduced := fun h => hnew (mem_allLocals_of_introduced (by simp) h)
    rw [allReads, List.mem_append]
    exact .inr (List.mem_filter.mpr ⟨ih hrest, by simp [hs]⟩)

end

end Stmt

/-! ## Code for a layout -/

/-- The argument list and the variable of guards are in use. -/
structure Names.Reserves (options : Options) (names : Names) : Prop where
  args : options.args ∈ names.used
  kindVar : options.kindVar ∈ names.used

/-- The names in an expression are in use, and each is the argument list or a local in scope. -/
def Expr.Settled (options : Options) (names : Names) (locals : List String) (e : Expr) : Prop :=
  ∀ x ∈ e.idents, x ∈ names.used ∧ options.Knows locals x

namespace Names.Reserves

variable {options : Options} {names after : Names} {claimed : List String}

theorem later (h : names.Reserves options) (hclaims : names.Claims after claimed) :
    after.Reserves options :=
  ⟨hclaims.mem_of_mem h.args, hclaims.mem_of_mem h.kindVar⟩

theorem claim (h : names.Reserves options) (base : String) :
    (names.claim base).2.Reserves options :=
  h.later (.single names base)

/-- A local that has been claimed is neither of them. -/
theorem knows (h : names.Reserves options) {locals : List String} {x : String}
    (hnew : x ∉ names.used) (hmem : x ∈ locals) : options.Knows locals x := by
  have hkind : x ≠ options.kindVar := fun heq => hnew (heq ▸ h.kindVar)
  have hargs : x ≠ options.args := fun heq => hnew (heq ▸ h.args)
  exact ⟨hkind, by simp [hargs, hmem]⟩

end Names.Reserves

namespace Expr.Settled

variable {options : Options} {names after : Names} {locals claimed : List String} {e : Expr}

theorem inScope (h : e.Settled options names locals) : e.Scoped options locals :=
  fun x hx => (h x hx).2

/-- Locals that are claimed later hide nothing. -/
theorem later (h : e.Settled options names locals) (hclaims : names.Claims after claimed)
    {inner : List String} (hinner : ∀ x, x ∈ locals → x ∈ inner)
    (hnew : ∀ x ∈ inner, x ∈ locals ∨ x ∈ claimed) : e.Settled options after inner := by
  intro x hx
  obtain ⟨hused, hkind, hknown⟩ := h x hx
  have hsame : x ∈ inner ↔ x ∈ locals := by
    refine ⟨fun hmem => (hnew x hmem).resolve_right fun hmem => ?_, hinner x⟩
    exact hclaims.fresh x hmem hused
  exact ⟨hclaims.mem_of_mem hused, hkind, by rw [hknown, hsame]⟩

theorem claim (h : e.Settled options names locals) (base : String) :
    e.Settled options (names.claim base).2 ((names.claim base).1 :: locals) :=
  h.later (.single names base) (fun _ hx => List.mem_cons_of_mem _ hx)
    (fun x hx => by simpa [or_comm] using hx)

theorem after_code (h : e.Settled options names locals) {code : List Stmt}
    (hclaims : names.Claims after (Stmt.allLocals code)) :
    e.Settled options after (Stmt.scopeAfter locals code) := by
  refine h.later hclaims (fun x hx => Stmt.mem_scopeAfter.mpr (.inl hx)) (fun x hx => ?_)
  rcases Stmt.mem_scopeAfter.mp hx with hx | ⟨s, hs, hx⟩
  · exact .inl hx
  · exact .inr (Stmt.mem_allLocals_of_introduced hs hx)

/-- A local is settled where it is in scope. -/
theorem ident (hnames : names.Reserves options) (base : String)
    (hmem : (names.claim base).1 ∈ locals) :
    (Expr.ident (names.claim base).1).Settled options (names.claim base).2 locals := by
  intro x hx
  obtain rfl : x = (names.claim base).1 := by simpa [Expr.idents] using hx
  exact ⟨by simp [Names.used_claim], hnames.knows (names.claim_not_mem base) hmem⟩

end Expr.Settled

namespace Layout

/-- Whatever fills a place of the layout is in scope where its source and its target are. -/
def KeepsScope (options : Options) (layout : Layout) : Prop :=
  ∀ (base : String) (source target : Expr) (names : Names) (locals : List String),
    names.Reserves options → source.Settled options names locals →
    target.Settled options names locals →
    Stmt.AllScoped options locals (layout.fill options base source target names).1

variable {options : Options} {source target : Expr} {names : Names} {locals : List String}

private theorem fillFields_scoped {fields : List (Field Layout)}
    (ih : ∀ f ∈ fields, f.type.KeepsScope options) {base : String}
    (hnames : names.Reserves options) (hsource : source.Settled options names locals)
    (htarget : target.Settled options names locals) :
    Stmt.AllScoped options locals (fillFields options base source target fields names).1 := by
  induction fields generalizing names locals with
  | nil => trivial
  | cons f fields ihFields =>
    obtain ⟨name, type⟩ := f
    have hproperty : (source.property name).Settled options names locals := by
      intro x hx
      exact hsource x (by simpa using hx)
    have hclaims := type.fill_claims options (base ++ name) (source.property name)
      (.field target name) names
    rw [fillFields, Stmt.allScoped_append]
    constructor
    · exact ih ⟨name, type⟩ (by simp) _ _ _ names locals hnames hproperty htarget
    · exact ihFields (fun f hf => ih f (by simp [hf])) (hnames.later hclaims)
        (hsource.after_code hclaims) (htarget.after_code hclaims)

/-- The elements of a sequence are filled below a counter of their own. -/
private theorem elements_scoped {elem : Layout} (ih : elem.KeepsScope options)
    (base counterBase : String) (hnames : names.Reserves options)
    (hsource : source.Settled options names locals)
    (htarget : target.Settled options names locals) :
    let counter := names.claim counterBase
    Stmt.AllScoped options (counter.1 :: locals)
      (elem.fill options base (source.element counter.1) (.index target (.ident counter.1))
        counter.2).1 := by
  have hcounter := Expr.Settled.ident hnames counterBase (.head locals)
  refine ih _ _ _ _ _ (hnames.claim _) (fun x hx => ?_) (fun x hx => ?_)
  · rw [Expr.idents_element, List.mem_append] at hx
    exact hx.elim (hsource.claim counterBase x) (hcounter x)
  · rw [Expr.idents, List.mem_append] at hx
    exact hx.elim (htarget.claim counterBase x) (hcounter x)

/-- With a source and a target that are in scope, so is all that fills the target. -/
theorem keepsScope (layout : Layout) : layout.KeepsScope options := by
  induction layout using Layout.induction with
  | scalar declared type =>
    intro base source target names locals hnames hsource htarget
    refine ⟨⟨htarget.inScope, fun x hx => ?_⟩, trivial⟩
    exact hsource.inScope x (by simpa using hx)
  | optional declared pointee ih =>
    intro base source target names locals hnames hsource htarget
    have hask : (source.ask .type).Scoped options locals := by
      intro x hx
      exact hsource.inScope x (by simpa using hx)
    have hinner := ih (base ++ "Elt") source (.deref target) names locals hnames hsource htarget
    have hnew : (Expr.new pointee.declared).Scoped options locals :=
      Expr.scoped_of_idents_eq_nil rfl
    refine ⟨⟨rfl, hask, fun x hx => .inl ?_, ⟨htarget.inScope, hnew⟩, hinner⟩, trivial⟩
    simpa [Expr.idents, Options.isKind] using hx
  | sequence declared elem extent ih =>
    intro base source target names locals hnames hsource htarget
    cases extent with
    | fixed length =>
      have hbound : (Expr.int length.toNat).Scoped options locals :=
        Expr.scoped_of_idents_eq_nil rfl
      exact ⟨⟨hbound, elements_scoped ih _ _ hnames hsource htarget⟩, trivial⟩
    | dynamic =>
      have hlength := Expr.Settled.ident hnames (base ++ "Len") (.head locals)
      have hlater := htarget.claim (base ++ "Len")
      have hask : (source.ask .length).Scoped options locals := by
        intro x hx
        exact hsource.inScope x (by simpa using hx)
      have helements := elements_scoped ih (base ++ "Elt") (base ++ "Idx")
        (hnames.claim _) (hsource.claim (base ++ "Len")) hlater
      exact ⟨hask, ⟨hlater.inScope, hlength.inScope⟩, ⟨hlength.inScope, helements⟩, trivial⟩
  | record declared fields ih =>
    intro base source target names locals hnames hsource htarget
    exact fillFields_scoped ih hnames hsource htarget

/-- Binding a value needs only its source to be in scope. -/
theorem bind_scoped (layout : Layout) (base : String) (hnames : names.Reserves options)
    (hsource : source.Settled options names locals) :
    Stmt.AllScoped options locals (layout.bind options base source names).1.code := by
  have hplace := Expr.Settled.ident hnames base (.head locals)
  have hplaced := hnames.claim base
  have hfill := layout.keepsScope (names.claim base).1 source _ _ _ hplaced (hsource.claim base)
    hplace
  cases layout with
  | scalar declared type => trivial
  | optional declared pointee => exact ⟨trivial, hfill⟩
  | record declared fields => exact ⟨Expr.scoped_of_idents_eq_nil rfl, hfill⟩
  | sequence declared elem extent =>
    cases extent with
    | fixed length => exact ⟨trivial, hfill⟩
    | dynamic =>
      let place := names.claim base
      let length := place.2.claim (place.1 ++ "Len")
      have hlength : (Expr.ident length.1).Settled options length.2 (length.1 :: locals) :=
        .ident hplaced _ (.head _)
      -- the place is declared after the length, although it is claimed before
      have hswap {e : Expr} (he : e.Settled options length.2 (length.1 :: place.1 :: locals)) :
          e.Settled options length.2 (place.1 :: length.1 :: locals) :=
        he.later (.refl _) (by simp +contextual) (by simp +contextual)
      have hask : (source.ask .length).Scoped options locals := by
        intro x hx
        exact hsource.inScope x (by simpa using hx)
      have helements := elements_scoped elem.keepsScope (place.1 ++ "Elt") (place.1 ++ "Idx")
        (hplaced.claim _) (hswap ((hsource.claim base).claim _))
        (hswap (hplace.claim _))
      have hbound : (Expr.ident length.1).Settled options length.2
          (place.1 :: length.1 :: locals) :=
        .ident hplaced _ (.tail _ (.head _))
      exact ⟨hask, hlength.inScope, ⟨hbound.inScope, helements⟩, trivial⟩

/-! Every local that is declared where a place is filled is a length or a counter. -/

private theorem fillFields_used {fields : List (Field Layout)}
    (ih : ∀ f ∈ fields, ∀ base source target names later,
      Stmt.AllUsed later (f.type.fill options base source target names).1) (base : String)
    (source target : Expr) (names : Names) (later : List String) :
    Stmt.AllUsed later (fillFields options base source target fields names).1 := by
  induction fields generalizing names with
  | nil => trivial
  | cons f fields ihFields =>
    rw [fillFields, Stmt.allUsed_append]
    exact ⟨ih f (by simp) _ _ _ _ _, ihFields (fun f hf => ih f (by simp [hf])) _⟩

theorem fill_used (layout : Layout) (base : String) (source target : Expr) (names : Names)
    (later : List String) :
    Stmt.AllUsed later (layout.fill options base source target names).1 := by
  induction layout using Layout.induction generalizing base source target names later with
  | scalar declared type => simp [fill, Stmt.AllUsed, Stmt.Used, Stmt.introduced]
  | optional declared pointee ih =>
    simp [fill, Options.whenPresent, Options.isKind, Stmt.AllUsed, Stmt.Used, Stmt.introduced,
      Expr.idents, ih]
  | sequence declared elem extent ih =>
    cases extent with
    | fixed length =>
      simp [fill, Stmt.AllUsed, Stmt.Used, Stmt.introduced, Expr.idents, ih]
    | dynamic =>
      simp [fill, Stmt.AllUsed, Stmt.Used, Stmt.introduced, Stmt.allReads, Stmt.reads,
        Expr.idents, ih]
  | record declared fields ih => exact fillFields_used ih base source target names later

/-- The local that a value is bound to is read if the value is. -/
theorem bind_used (layout : Layout) (base : String) (source : Expr) (names : Names)
    {later : List String}
    (hlater : ∀ x ∈ (layout.bind options base source names).1.value.idents,
      x ∈ Stmt.allLocals (layout.bind options base source names).1.code → x ∈ later) :
    Stmt.AllUsed later (layout.bind options base source names).1.code := by
  let place := names.claim base
  have hfill : Stmt.AllUsed later (layout.fill options place.1 source (.ident place.1) place.2).1 :=
    layout.fill_used place.1 source (.ident place.1) place.2 later
  have hclaims := layout.fill_claims options place.1 source (.ident place.1) place.2
  have hfresh : place.1 ∉ Stmt.allLocals
      (layout.fill options place.1 source (.ident place.1) place.2).1 :=
    fun h => hclaims.fresh _ h (by simp [place, Names.used_claim])
  have hdeclared {s : Stmt} (hs : s.Used) (hintroduced : s.introduced = [place.1])
      (hplace : place.1 ∈ later) :
      Stmt.AllUsed later
        (s :: (layout.fill options place.1 source (.ident place.1) place.2).1) := by
    refine ⟨hs, fun x hx => ?_, hfill⟩
    obtain rfl : x = place.1 := by simpa [hintroduced] using hx
    exact Stmt.mem_allReads_of_later hplace hfresh
  cases layout with
  | scalar declared type => trivial
  | optional declared pointee =>
    exact hdeclared (s := .declare place.1 declared) trivial rfl
      (hlater place.1 (.head _) (.head _))
  | record declared fields =>
    exact hdeclared (s := .define place.1 (.composite declared)) trivial rfl
      (hlater place.1 (.head _) (.head _))
  | sequence declared elem extent =>
    cases extent with
    | fixed length =>
      exact hdeclared (s := .declare place.1 declared) trivial rfl
        (hlater place.1 (.head _) (.head _))
    | dynamic =>
      have hplace : place.1 ∈ later := by
        refine hlater place.1 (.head _) ?_
        simp [bind, place, Stmt.allLocals, Stmt.locals]
      simp [bind, place, Stmt.AllUsed, Stmt.Used, Stmt.introduced, Stmt.allReads, Stmt.reads,
        Expr.idents, hplace, fill_used]

end Layout

/-! ## Bodies of functions -/

namespace Layout

variable {options : Options} {names : Names} {locals : List String}

/-- The value of a binding is in scope after its statements. -/
theorem bind_value_settled (layout : Layout) (base : String) {source : Expr}
    (hnames : names.Reserves options) (hsource : source.Settled options names locals) :
    (layout.bind options base source names).1.value.Settled options
      (layout.bind options base source names).2
      (Stmt.scopeAfter locals (layout.bind options base source names).1.code) := by
  have hclaims := layout.bind_claims options base source names
  have hlocal {s : Stmt} (hs : s ∈ (layout.bind options base source names).1.code)
      (hintroduced : s.introduced = [(names.claim base).1]) :
      (Expr.ident (names.claim base).1).Settled options (layout.bind options base source names).2
        (Stmt.scopeAfter locals (layout.bind options base source names).1.code) := by
    intro x hx
    obtain rfl : x = (names.claim base).1 := by simpa [Expr.idents] using hx
    have hplace : (names.claim base).1 ∈ s.introduced := by simp [hintroduced]
    have hmem := Stmt.mem_allLocals_of_introduced hs hplace
    refine ⟨(hclaims.mem_used _).mpr (.inl hmem), hnames.knows (names.claim_not_mem base) ?_⟩
    exact Stmt.mem_scopeAfter.mpr (.inr ⟨s, hs, hplace⟩)
  cases layout with
  | scalar declared type =>
    intro x hx
    exact hsource x (by simpa [bind] using hx)
  | optional declared pointee => exact hlocal (.head _) rfl
  | record declared fields => exact hlocal (.head _) rfl
  | sequence declared elem extent =>
    cases extent with
    | fixed length => exact hlocal (.head _) rfl
    | dynamic => exact hlocal (.tail _ (.head _)) rfl

end Layout

namespace Arguments

variable {options : Options} {names : Names} {locals : List String}

/-- All statements are in scope, and the values are after them. -/
theorem emit_scoped (index : Nat) (layouts : List (Field Layout))
    (hnames : names.Reserves options)
    (hargs : (Expr.ident options.args).Settled options names locals) :
    Stmt.AllScoped options locals (emit options index layouts names).code ∧
      ∀ value ∈ (emit options index layouts names).values,
        value.Settled options (namesAfter options index layouts names)
          (Stmt.scopeAfter locals (emit options index layouts names).code) := by
  induction layouts generalizing index names locals with
  | nil => exact ⟨trivial, by simp [emit]⟩
  | cons f layouts ih =>
    obtain ⟨base, layout⟩ := f
    let source : Expr := .index (.ident options.args) (.int index)
    have hsource : source.Settled options names locals := by
      intro x hx
      exact hargs x (by simpa [source, Expr.idents] using hx)
    have hclaims := layout.bind_claims options base source names
    obtain ⟨hcode, hvalues⟩ := ih (index + 1) (hnames.later hclaims) (hargs.after_code hclaims)
    simp only [emit, namesAfter, Stmt.allScoped_append, Stmt.scopeAfter_append]
    refine ⟨⟨layout.bind_scoped base hnames hsource, hcode⟩, fun value hvalue => ?_⟩
    rcases List.mem_cons.mp hvalue with rfl | hvalue
    · exact (layout.bind_value_settled base hnames hsource).after_code (emit_claims ..)
    · exact hvalues value hvalue

/-- If the values are read in the end, every local is read. -/
theorem emit_used (options : Options) (index : Nat) (layouts : List (Field Layout)) (names : Names)
    {later : List String}
    (hlater : ∀ value ∈ (emit options index layouts names).values, ∀ x ∈ value.idents, x ∈ later) :
    Stmt.AllUsed later (emit options index layouts names).code := by
  induction layouts generalizing index names with
  | nil => trivial
  | cons f layouts ih =>
    obtain ⟨base, layout⟩ := f
    let source : Expr := .index (.ident options.args) (.int index)
    have hclaims := layout.bind_claims options base source names
    have hothers :=
      emit_claims options (index + 1) layouts (layout.bind options base source names).2
    simp only [emit, List.forall_mem_cons] at hlater
    simp only [emit, Stmt.allUsed_append]
    refine ⟨layout.bind_used base source names fun x hx hlocal => ?_, ih _ _ hlater.2⟩
    have hused := (hclaims.mem_used x).mpr (.inl hlocal)
    exact Stmt.mem_allReads_of_later (hlater.1 x hx) fun h => hothers.fresh x h hused

end Arguments

namespace AliasTable

variable {table : AliasTable}

/-- In the body of a bound function every name is in scope, the values in the call name locals of
the outermost block only, no local hides the function, and every local is read in its scope. -/
theorem bind_wellScoped {options : Options} {signature : Signature} {binding : Binding}
    (hargs : options.args ≠ options.kindVar) (h : table.bind options signature = .ok binding) :
    Stmt.AllScoped options [] binding.arguments.code ∧
      binding.call = .call (.ident signature.name) binding.arguments.values ∧
      signature.name ∉ Stmt.scopeAfter [] binding.arguments.code ∧
      (∀ value ∈ binding.arguments.values,
        value.Scoped options (Stmt.scopeAfter [] binding.arguments.code)) ∧
      Stmt.AllUsed (Expr.allIdents binding.arguments.values) binding.arguments.code := by
  obtain ⟨layouts, -, rfl⟩ := bind_eq_ok_iff.mp h
  let names := (Names.reserved options).reserve signature.name
  have hnames : names.Reserves options :=
    ⟨by simp [names, Names.reserve, Names.reserved], by simp [names, Names.reserve, Names.reserved]⟩
  have hlist : (Expr.ident options.args).Settled options names [] := by
    intro x hx
    obtain rfl : x = options.args := by simpa [Expr.idents] using hx
    exact ⟨hnames.args, hargs, by simp⟩
  have hclaims := Arguments.emit_claims options 0 layouts names
  obtain ⟨hcode, hvalues⟩ := Arguments.emit_scoped 0 layouts hnames hlist
  refine ⟨hcode, rfl, fun hmem => ?_, fun value hvalue => (hvalues value hvalue).inScope, ?_⟩
  · obtain hmem | ⟨s, hs, hmem⟩ := Stmt.mem_scopeAfter.mp hmem
    · cases hmem
    · exact hclaims.fresh _ (Stmt.mem_allLocals_of_introduced hs hmem)
        ((Names.reserved options).mem_used_reserve signature.name)
  · refine Arguments.emit_used options 0 layouts names fun value hvalue x hx => ?_
    exact Expr.mem_allIdents.mpr ⟨value, hvalue, hx⟩

theorem bind_wellScoped_drawRows : ∃ binding, rows.bind {} drawRows = .ok binding ∧
    binding.call = .call (.ident "draw") [.ident "a", .ident "aLen", .ident "arg2"] ∧
    Stmt.scopeAfter [] binding.arguments.code = ["arg2", "aLen", "aLenLen1", "aLenLen", "a"] ∧
    Stmt.AllScoped {} [] binding.arguments.code ∧
    (∀ value ∈ binding.arguments.values,
      value.Scoped {} (Stmt.scopeAfter [] binding.arguments.code)) ∧
    Stmt.AllUsed (Expr.allIdents binding.arguments.values) binding.arguments.code := by
  have hbind : rows.bind {} drawRows = .ok _ :=
    bind_eq_ok_iff.mpr ⟨drawLayouts, layoutParams_drawRows, rfl⟩
  obtain ⟨hcode, hcall, -, hvalues, hused⟩ := bind_wellScoped (by decide) hbind
  exact ⟨_, hbind, hcall.trans (by cbv), by cbv, hcode, hvalues, hused⟩

end AliasTable

end Unmarshal
