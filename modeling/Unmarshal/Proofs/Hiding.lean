import Unmarshal.Manifest.Lower
import Unmarshal.Proofs.Capture
import Unmarshal.Proofs.Freshness

/-!
# Locals that hide names

Which names the code for a parameter list captures, found from the layouts of the parameters and
the names in use. A local never hides the argument list, the runtime package or the function that
is called; what it may hide are builtins and types. The variable of a guard may hide anything that
is meant inside the guard.
-/
namespace Unmarshal

open Stmt (capturedIn)

/-- The names that locals of some code capture, the locals that are in scope after it, and the names
that are in use then. -/
structure Scoping where
  captured : List String
  locals : List String
  names : Names

namespace Scoping

/-- The scoping of code that is followed by other code, which means the given names. -/
def andThen (first : Scoping) (meant : List String) (others : Scoping) : Scoping :=
  ⟨first.captured ++ capturedIn first.locals meant ++ others.captured,
    first.locals ++ others.locals, others.names⟩

/-- The scoping of a local and of the code after it, which means the given names. -/
def declaring (rest : Scoping) (name : String) (meant : List String) : Scoping :=
  ⟨capturedIn [name] meant ++ rest.captured, name :: rest.locals, rest.names⟩

/-- The scoping of a block that means the given names, under a header that binds a name. -/
def within (inner : Scoping) (name : String) (meant : List String) : Scoping :=
  ⟨capturedIn [name] meant ++ inner.captured, [], inner.names⟩

end Scoping

namespace Layout

section

variable (args runtime : List String)

mutual

/-- The names that are meant where a place is filled: `args` for the argument list, `runtime` for
the runtime package, and those of builtins and types. -/
def meant : Layout → List String
  | .scalar _ type => type.cast?.toList ++ args
  | .optional _ pointee =>
    args ++ runtime ++ "new" :: pointee.declared.names ++ meant pointee
  | .sequence _ elem (.fixed _) => meant elem
  | .sequence declared elem .dynamic => args ++ "make" :: declared.names ++ meant elem
  | .record _ fields => meantOfFields fields

def meantOfFields : List (Field Layout) → List String
  | [] => []
  | ⟨_, type⟩ :: fields => meant type ++ meantOfFields fields

end

/-- The names that are meant in the statements that bind a value. -/
def meantInCode (layout : Layout) : List String :=
  match layout with
  | .scalar _ _ => []
  | .sequence _ _ .dynamic => layout.meant args runtime
  | _ => layout.declared.names ++ layout.meant args runtime

/-- The names that are meant in the value of a binding. -/
def meantInValue (layout : Layout) : List String :=
  match layout with
  | .scalar _ type => type.cast?.toList ++ args
  | _ => []

end

/-- The names of builtins and types that are meant where a place is filled. -/
abbrev types : Layout → List String := meant [] []

abbrev typesOfFields : List (Field Layout) → List String := meantOfFields [] []

variable (options : Options)

mutual

/-- The scoping of the code that fills a place, for locals named after `base`. -/
def scoping (base : String) : Layout → Names → Scoping
  | .scalar _ _, names => ⟨[], [], names⟩
  | .optional _ pointee, names =>
    (scoping (base ++ "Elt") pointee names).within options.kindVar
      (options.runtime :: "new" :: pointee.declared.names ++
        pointee.meant [options.args] [options.runtime])
  | .sequence _ elem (.fixed _), names =>
    let counter := names.claim (base ++ "Idx")
    (scoping (base ++ "Elt") elem counter.2).within counter.1 elem.types
  | .sequence declared elem .dynamic, names =>
    let length := names.claim (base ++ "Len")
    let counter := length.2.claim (base ++ "Idx")
    ((scoping (base ++ "Elt") elem counter.2).within counter.1 elem.types).declaring length.1
      ("make" :: declared.names ++ elem.types)
  | .record _ fields, names => scopingOfFields base fields names

def scopingOfFields (base : String) : List (Field Layout) → Names → Scoping
  | [], names => ⟨[], [], names⟩
  | ⟨name, type⟩ :: fields, names =>
    let first := scoping (base ++ name) type names
    first.andThen (typesOfFields fields) (scopingOfFields base fields first.names)

end

/-- The scoping of the statements that bind a value. -/
def scopingInCode (base : String) (layout : Layout) (names : Names) : Scoping :=
  let place := names.claim base
  match layout with
  | .scalar _ _ => ⟨[], [], names⟩
  | .sequence declared elem .dynamic =>
    let length := place.2.claim (place.1 ++ "Len")
    let counter := length.2.claim (place.1 ++ "Idx")
    let inner := (scoping options (place.1 ++ "Elt") elem counter.2).within counter.1 elem.types
    (inner.declaring place.1 elem.types).declaring length.1 ("make" :: declared.names ++ elem.types)
  | _ => (scoping options place.1 layout place.2).declaring place.1 layout.types

section

variable {options}

private theorem mem_meantOfFields {args runtime : List String} {x : String}
    {fields : List (Field Layout)}
    (ih : ∀ f ∈ fields, x ∈ f.type.meant args runtime ↔ x ∈ f.type.types) :
    x ∈ meantOfFields args runtime fields ↔ x ∈ typesOfFields fields := by
  induction fields with
  | nil => rfl
  | cons f fields ihFields =>
    obtain ⟨name, type⟩ := f
    have hFirst := ih ⟨name, type⟩ (by simp)
    have hOthers := ihFields fun f hf => ih f (by simp [hf])
    simp only [meantOfFields, List.mem_append, hFirst, hOthers]

theorem mem_meant_iff {args runtime : List String} {x : String} (hargs : x ∉ args)
    (hruntime : x ∉ runtime) (layout : Layout) :
    x ∈ layout.meant args runtime ↔ x ∈ layout.types := by
  induction layout using Layout.induction with
  | scalar declared type => simp [meant, hargs]
  | optional declared pointee ih => simp [meant, hargs, hruntime, ih]
  | sequence declared elem extent ih => cases extent <;> simp [meant, hargs, ih]
  | record declared fields ih =>
    rw [types, meant, meant]
    exact mem_meantOfFields ih

end

end Layout

namespace Scoping

/-- What a scoping says about code that is written after `before` and means the given names. -/
structure Describes (options : Options) (scoping : Scoping) (before : Names) (meant : List String)
    (code : List Stmt) (after : Names) : Prop where
  names_eq : scoping.names = after
  fresh : ∀ x ∈ scoping.locals, x ∉ before.used
  captured_fresh : ∀ x ∈ scoping.captured, x = options.kindVar ∨ x ∉ before.used
  mem_scope : ∀ scope x, x ∈ Stmt.scopeAfter scope code ↔ x ∈ scoping.locals ∨ x ∈ scope
  mem_captured : ∀ scope x, x ∈ Stmt.allCaptured scope code ↔
    x ∈ meant ∧ x ∈ scope ∨ x ∈ scoping.captured

namespace Describes

variable {options : Options} {first others rest inner : Scoping} {before between after : Names}
  {meant own later types : List String} {name : String} {code a b : List Stmt}

theorem empty (options : Options) (names : Names) :
    Scoping.Describes options ⟨[], [], names⟩ names [] [] names :=
  ⟨rfl, by simp, by simp, by simp [Stmt.scopeAfter], by simp [Stmt.allCaptured]⟩

theorem congr (h : rest.Describes options before meant code after)
    (hmeant : ∀ x, x ∈ meant ↔ x ∈ later) : rest.Describes options before later code after := by
  refine ⟨h.names_eq, h.fresh, h.captured_fresh, h.mem_scope, ?_⟩
  intro scope x
  rw [h.mem_captured, hmeant]

/-- Later code is captured by its own locals and by those that earlier code leaves in scope. -/
theorem append (h : first.Describes options before meant a between)
    (k : others.Describes options between later b after)
    (hused : ∀ x ∈ before.used, x ∈ between.used)
    (htypes : ∀ x, x ∉ before.used → (x ∈ later ↔ x ∈ types)) :
    (first.andThen types others).Describes options before (meant ++ later) (a ++ b) after := by
  refine ⟨k.names_eq, ?_, ?_, ?_, ?_⟩
  · intro x hx
    rcases List.mem_append.mp hx with hx | hx
    · exact h.fresh x hx
    · exact fun hmem => k.fresh x hx (hused x hmem)
  · intro x hx
    have hearly := h.captured_fresh x
    have hlocal := h.fresh x
    have hlate := k.captured_fresh x
    simp only [andThen, List.mem_append, Stmt.mem_capturedIn] at hx
    grind
  · intro scope x
    rw [Stmt.scopeAfter_append, k.mem_scope, h.mem_scope]
    simp only [andThen, List.mem_append]
    grind
  · intro scope x
    have hlocal : x ∈ first.locals → (x ∈ later ↔ x ∈ types) := fun hx => htypes x (h.fresh x hx)
    rw [Stmt.allCaptured_append, List.mem_append, h.mem_captured, k.mem_captured, h.mem_scope]
    simp only [andThen, List.mem_append, Stmt.mem_capturedIn]
    grind

theorem assign (h : rest.Describes options before meant code after) (target value : Expr) :
    rest.Describes options before (target.meant ++ value.meant ++ meant)
      (.assign target value :: code) after := by
  refine ⟨h.names_eq, h.fresh, h.captured_fresh, h.mem_scope, ?_⟩
  intro scope x
  have hrest := h.mem_captured scope x
  simp only [Stmt.allCaptured, Stmt.captured, Stmt.introduced, List.nil_append, List.mem_append,
    Stmt.mem_capturedIn, hrest]
  grind

/-- A new local captures what the code after it means. -/
theorem declaring (h : rest.Describes options between meant code after) (s : Stmt)
    (hs : s.introduced = [name]) (hown : ∀ scope, s.captured scope = capturedIn scope own)
    (hnew : name ∉ before.used) (hused : ∀ x ∈ before.used, x ∈ between.used)
    (htypes : name ∈ meant ↔ name ∈ types) :
    (rest.declaring name types).Describes options before (own ++ meant) (s :: code) after := by
  refine ⟨h.names_eq, ?_, ?_, ?_, ?_⟩
  · intro x hx
    rcases List.mem_cons.mp hx with rfl | hx
    · exact hnew
    · exact fun hmem => h.fresh x hx (hused x hmem)
  · intro x hx
    have hrest := h.captured_fresh x
    simp only [Scoping.declaring, List.mem_append, Stmt.mem_capturedIn, List.mem_singleton] at hx
    grind
  · intro scope x
    simp only [Stmt.scopeAfter, h.mem_scope, hs, Scoping.declaring, List.mem_cons, List.mem_append,
      List.not_mem_nil, or_false]
    grind
  · intro scope x
    have hrest := h.mem_captured (name :: scope) x
    simp only [Stmt.allCaptured, hown, hs, List.cons_append, List.nil_append, Scoping.declaring,
      List.mem_append, Stmt.mem_capturedIn, hrest, List.mem_cons, List.not_mem_nil, or_false]
    grind

theorem loop (h : inner.Describes options between meant code after) (bound : Expr)
    (hbound : bound.meant = []) (hnew : name ∉ before.used)
    (hused : ∀ x ∈ before.used, x ∈ between.used) (htypes : name ∈ meant ↔ name ∈ types) :
    (inner.within name types).Describes options before meant [.loop name bound code] after := by
  refine ⟨h.names_eq, by simp [within], ?_, by simp [within, Stmt.scopeAfter, Stmt.introduced], ?_⟩
  · intro x hx
    have hinner := h.captured_fresh x
    simp only [within, List.mem_append, Stmt.mem_capturedIn, List.mem_singleton] at hx
    grind
  · intro scope x
    have hinner := h.mem_captured (name :: scope) x
    simp only [Stmt.allCaptured, Stmt.captured, hbound, within, List.append_nil, List.mem_append,
      Stmt.mem_capturedIn, List.not_mem_nil, List.mem_cons, false_and, hinner, false_or, or_false]
    grind

theorem whenPresent (h : inner.Describes options before meant code after) {source : Expr}
    (hsource : source.meant = [options.args])
    (htypes : options.kindVar ∈ meant ↔ options.kindVar ∈ types) :
    (inner.within options.kindVar (options.runtime :: types)).Describes options before
      (options.args :: options.runtime :: meant) [options.whenPresent source code] after := by
  refine ⟨h.names_eq, by simp [within], ?_,
    by simp [within, Stmt.scopeAfter, Stmt.introduced, Options.whenPresent], ?_⟩
  · intro x hx
    have hinner := h.captured_fresh x
    simp only [within, List.mem_append, Stmt.mem_capturedIn, List.mem_singleton] at hx
    grind
  · intro scope x
    have hinner := h.mem_captured (options.kindVar :: scope) x
    simp only [Options.whenPresent, Options.isKind, Stmt.allCaptured, Stmt.captured, Expr.meant_ask,
      hsource, Stmt.introduced, List.cons_append, List.nil_append, Expr.meant, List.append_nil,
      List.mem_append, Stmt.mem_capturedIn, List.mem_cons, List.not_mem_nil, or_false, or_self,
      hinner, within]
    grind

end Describes

end Scoping

namespace Layout

variable {options : Options}

private theorem mem_meant_claim {names : Names} (hargs : options.args ∈ names.used)
    (hruntime : options.runtime ∈ names.used) {x : String} (hx : x ∉ names.used) (layout : Layout) :
    x ∈ layout.meant [options.args] [options.runtime] ↔ x ∈ layout.types := by
  apply mem_meant_iff
  · simp only [List.mem_singleton]
    rintro rfl
    exact hx hargs
  · simp only [List.mem_singleton]
    rintro rfl
    exact hx hruntime

private theorem scopingOfFields_describes {fields : List (Field Layout)}
    (ih : ∀ f ∈ fields, ∀ base source target names, source.meant = [options.args] →
      target.meant = [] → options.args ∈ names.used → options.runtime ∈ names.used →
      (f.type.scoping options base names).Describes options names
        (f.type.meant [options.args] [options.runtime])
        (f.type.fill options base source target names).1
        (f.type.fill options base source target names).2)
    (base : String) (source target : Expr) (names : Names) (hsource : source.meant = [options.args])
    (htarget : target.meant = []) (hargs : options.args ∈ names.used)
    (hruntime : options.runtime ∈ names.used) :
    (scopingOfFields options base fields names).Describes options names
      (meantOfFields [options.args] [options.runtime] fields)
      (fillFields options base source target fields names).1
      (fillFields options base source target fields names).2 := by
  induction fields generalizing names with
  | nil => exact .empty options names
  | cons f fields ihFields =>
    obtain ⟨name, type⟩ := f
    have hFirst := ih ⟨name, type⟩ (by simp) (base ++ name) (source.property name)
      (.field target name) names (by simpa) (by simpa [Expr.meant]) hargs hruntime
    have hclaims := type.fill_claims options (base ++ name) (source.property name)
      (.field target name) names
    have hOthers := ihFields (fun f hf => ih f (by simp [hf])) _ (hclaims.mem_of_mem hargs)
      (hclaims.mem_of_mem hruntime)
    simp only [scopingOfFields, fillFields, hFirst.names_eq]
    refine hFirst.append hOthers (fun x hx => hclaims.mem_of_mem hx) ?_
    intro x hx
    exact mem_meant_claim hargs hruntime hx (.record (.record []) fields)

theorem scoping_describes (layout : Layout) (base : String) (source target : Expr) (names : Names)
    (hsource : source.meant = [options.args]) (htarget : target.meant = [])
    (hargs : options.args ∈ names.used) (hruntime : options.runtime ∈ names.used) :
    (layout.scoping options base names).Describes options names
      (layout.meant [options.args] [options.runtime])
      (layout.fill options base source target names).1
      (layout.fill options base source target names).2 := by
  induction layout using Layout.induction generalizing base source target names with
  | scalar declared type =>
    refine ((Scoping.Describes.empty options names).assign target (type.read source)).congr ?_
    simp [meant, Scalar.meant_read, hsource, htarget]
  | optional declared pointee ih =>
    have h := ih (base ++ "Elt") source (.deref target) names hsource (by simpa [Expr.meant])
      hargs hruntime
    refine ((h.assign target (.new pointee.declared)).whenPresent hsource ?_).congr ?_
    · simp [Expr.meant, htarget]
    · simp [Expr.meant, htarget, meant]
  | sequence declared elem extent ih =>
    have hindex (counter : String) : (Expr.index target (.ident counter)).meant = [] := by
      simp [Expr.meant, htarget]
    cases extent with
    | fixed length =>
      let counter := names.claim (base ++ "Idx")
      have hnew := names.claim_not_mem (base ++ "Idx")
      have hused : ∀ x ∈ names.used, x ∈ counter.2.used := fun x hx => names.mem_used_claim _ hx
      have h := ih (base ++ "Elt") (source.element counter.1) (.index target (.ident counter.1))
        counter.2 (by simpa) (hindex counter.1) (hused _ hargs) (hused _ hruntime)
      exact h.loop _ rfl hnew hused (mem_meant_claim hargs hruntime hnew elem)
    | dynamic =>
      let length := names.claim (base ++ "Len")
      let counter := length.2.claim (base ++ "Idx")
      have hlength : length.1 ∉ names.used := names.claim_not_mem (base ++ "Len")
      have hused : ∀ x ∈ names.used, x ∈ counter.2.used :=
        fun x hx => length.2.mem_used_claim _ (names.mem_used_claim _ hx)
      have hcounter : counter.1 ∉ names.used :=
        fun hx => length.2.claim_not_mem _ (names.mem_used_claim _ hx)
      have h := ih (base ++ "Elt") (source.element counter.1) (.index target (.ident counter.1))
        counter.2 (by simpa) (hindex counter.1) (hused _ hargs) (hused _ hruntime)
      -- the scoping grows from the loop backwards, over the assignment to the length
      have hloop := h.loop (.ident length.1) rfl hcounter hused
        (mem_meant_claim hargs hruntime hcounter elem)
      have hmake := hloop.assign target (.make declared (.ident length.1))
      refine (hmake.declaring (.define length.1 (source.ask .length)) rfl (fun scope => rfl)
        hlength (fun x hx => hx) ?_).congr ?_
      · simp [Expr.meant, htarget, mem_meant_claim hargs hruntime hlength elem]
      · simp [Expr.meant, htarget, hsource, meant]
  | record declared fields ih =>
    exact scopingOfFields_describes ih base source target names hsource htarget hargs hruntime

/-- The scoping of a layout describes the statements that bind a value. -/
theorem scopingInCode_describes (layout : Layout) (base : String) {source : Expr} {names : Names}
    (hsource : source.meant = [options.args]) (hargs : options.args ∈ names.used)
    (hruntime : options.runtime ∈ names.used) :
    (layout.scopingInCode options base names).Describes options names
      (layout.meantInCode [options.args] [options.runtime])
      (layout.bind options base source names).1.code (layout.bind options base source names).2 := by
  let place := names.claim base
  have hplace := names.claim_not_mem base
  have hplaced : ∀ x ∈ names.used, x ∈ place.2.used := fun x hx => names.mem_used_claim base hx
  have hstored := layout.scoping_describes place.1 source (.ident place.1) place.2 hsource rfl
    (hplaced _ hargs) (hplaced _ hruntime)
  have htypes := mem_meant_claim hargs hruntime hplace layout
  cases layout with
  | scalar declared type => exact .empty options names
  | optional declared pointee =>
    exact hstored.declaring _ rfl (fun scope => rfl) hplace hplaced htypes
  | record declared fields =>
    exact hstored.declaring _ rfl (fun scope => rfl) hplace hplaced htypes
  | sequence declared elem extent =>
    cases extent with
    | fixed length => exact hstored.declaring _ rfl (fun scope => rfl) hplace hplaced htypes
    | dynamic =>
      let length := place.2.claim (place.1 ++ "Len")
      let counter := length.2.claim (place.1 ++ "Idx")
      have hmeasured : ∀ x ∈ names.used, x ∈ length.2.used :=
        fun x hx => place.2.mem_used_claim _ (hplaced x hx)
      have hused : ∀ x ∈ names.used, x ∈ counter.2.used :=
        fun x hx => length.2.mem_used_claim _ (hmeasured x hx)
      have hlength : length.1 ∉ names.used := fun hx => place.2.claim_not_mem _ (hplaced _ hx)
      have hcounter : counter.1 ∉ names.used := fun hx => length.2.claim_not_mem _ (hmeasured _ hx)
      have h := elem.scoping_describes (place.1 ++ "Elt") (source.element counter.1)
        (.index (.ident place.1) (.ident counter.1)) counter.2 (by simpa) rfl (hused _ hargs)
        (hused _ hruntime)
      have hloop := h.loop (.ident length.1) rfl hcounter hused
        (mem_meant_claim hargs hruntime hcounter elem)
      have hmake := hloop.declaring (.define place.1 (.make declared (.ident length.1))) rfl
        (fun scope => rfl) hplace (fun x hx => hx) (mem_meant_claim hargs hruntime hplace elem)
      refine (hmake.declaring (.define length.1 (source.ask .length)) rfl (fun scope => rfl)
        hlength (fun x hx => hx) ?_).congr ?_
      · simp [Expr.meant, mem_meant_claim hargs hruntime hlength elem]
      · simp [Expr.meant, hsource, meantInCode, meant]

theorem mem_meantInCode_claim {names : Names} (hargs : options.args ∈ names.used)
    (hruntime : options.runtime ∈ names.used) {x : String} (hx : x ∉ names.used) (layout : Layout) :
    x ∈ layout.meantInCode [options.args] [options.runtime] ↔ x ∈ layout.meantInCode [] [] := by
  have h := mem_meant_claim hargs hruntime hx layout
  cases layout with
  | scalar declared type => rfl
  | optional | record => simp only [meantInCode, List.mem_append, h]
  | sequence declared elem extent => cases extent <;> simp only [meantInCode, List.mem_append, h]

theorem meant_bind_value (layout : Layout) (base : String) {source : Expr} (names : Names)
    (hsource : source.meant = [options.args]) :
    (layout.bind options base source names).1.value.meant = layout.meantInValue [options.args] := by
  cases layout with
  | scalar declared type => simp [bind, meantInValue, Scalar.meant_read, hsource]
  | optional | record => rfl
  | sequence declared elem extent => cases extent <;> rfl

end Layout

namespace Arguments

variable (options : Options)

/-- The scoping of the statements that bind all parameters. What a parameter declares at its own
level is in scope for the later ones. -/
def scoping : List (Field Layout) → Names → Scoping
  | [], names => ⟨[], [], names⟩
  | ⟨base, layout⟩ :: layouts, names =>
    let first := layout.scopingInCode options base names
    first.andThen (layouts.flatMap fun f => f.type.meantInCode [] []) (scoping layouts first.names)

/-- The names that locals capture in a call and in the statements before it. -/
def hidden (layouts : List (Field Layout)) (names : Names) : List String :=
  let all := scoping options layouts names
  all.captured ++ capturedIn all.locals (layouts.flatMap fun f => f.type.meantInValue [])

variable {options}

theorem scoping_describes (index : Nat) (layouts : List (Field Layout)) {names : Names}
    (hargs : options.args ∈ names.used) (hruntime : options.runtime ∈ names.used) :
    (scoping options layouts names).Describes options names
      (layouts.flatMap fun f => f.type.meantInCode [options.args] [options.runtime])
      (emit options index layouts names).code (namesAfter options index layouts names) := by
  induction layouts generalizing index names with
  | nil => exact .empty options names
  | cons f layouts ih =>
    obtain ⟨base, layout⟩ := f
    have hsource : (Expr.index (.ident options.args) (.int index)).meant = [options.args] := rfl
    have hFirst := layout.scopingInCode_describes base hsource hargs hruntime
    have hclaims :=
      layout.bind_claims options base (.index (.ident options.args) (.int index)) names
    have hOthers := ih (index + 1) (hclaims.mem_of_mem hargs) (hclaims.mem_of_mem hruntime)
    simp only [scoping, emit, namesAfter, List.flatMap_cons, hFirst.names_eq]
    refine hFirst.append hOthers (fun x hx => hclaims.mem_of_mem hx) ?_
    intro x hx
    simp only [List.mem_flatMap]
    exact exists_congr fun f => and_congr_right fun _ =>
      Layout.mem_meantInCode_claim hargs hruntime hx f.type

private theorem mem_meantInValue_iff {layout : Layout} {args x : String} (hargs : x ≠ args) :
    x ∈ layout.meantInValue [args] ↔ x ∈ layout.meantInValue [] := by
  cases layout with
  | scalar declared type => simp [Layout.meantInValue, hargs]
  | optional | sequence | record => rfl

theorem mem_allMeant_values (index : Nat) (layouts : List (Field Layout)) {names : Names}
    {x : String} (hargs : x ≠ options.args) :
    x ∈ Expr.allMeant (emit options index layouts names).values ↔
      x ∈ layouts.flatMap fun f => f.type.meantInValue [] := by
  induction layouts generalizing index names with
  | nil => simp [emit, Expr.allMeant]
  | cons f layouts ih =>
    obtain ⟨base, layout⟩ := f
    have hsource : (Expr.index (.ident options.args) (.int index)).meant = [options.args] := rfl
    simp only [emit, Expr.allMeant, List.mem_append, List.flatMap_cons, ih,
      layout.meant_bind_value base names hsource, mem_meantInValue_iff hargs]

/-- What a binding captures is what the layouts let its locals hide. The function is never hidden,
and the argument list and the runtime package only where a guard hides them. -/
theorem mem_captured_iff {name : String} {layouts : List (Field Layout)} {names : Names}
    (hname : name ∈ names.used) (hargs : options.args ∈ names.used)
    (hruntime : options.runtime ∈ names.used) {x : String} :
    x ∈ Binding.captured ⟨name, emit options 0 layouts names⟩ ↔
      x ∈ hidden options layouts names := by
  have h := scoping_describes 0 layouts hargs hruntime
  have hcall : x ∈ (scoping options layouts names).locals → x ≠ name ∧ x ≠ options.args := by
    intro hx
    have hnew := h.fresh x hx
    constructor <;> rintro rfl
    · exact hnew hname
    · exact hnew hargs
  have hvalues : x ≠ options.args → (x ∈ Expr.allMeant (emit options 0 layouts names).values ↔
      x ∈ layouts.flatMap fun f => f.type.meantInValue []) :=
    fun hx => mem_allMeant_values 0 layouts hx
  simp only [Binding.captured, Binding.call, Expr.meant, hidden, List.mem_append, h.mem_captured,
    h.mem_scope, Stmt.mem_capturedIn, List.mem_cons, List.not_mem_nil, and_false, false_or,
    or_false]
  grind

theorem hidden_fresh {layouts : List (Field Layout)} {names : Names}
    (hargs : options.args ∈ names.used) (hruntime : options.runtime ∈ names.used) :
    ∀ x ∈ hidden options layouts names, x = options.kindVar ∨ x ∉ names.used := by
  have h := scoping_describes 0 layouts hargs hruntime
  intro x hx
  rcases List.mem_append.mp hx with hx | hx
  · exact h.captured_fresh x hx
  · exact .inr (h.fresh x (Stmt.mem_capturedIn.mp hx).2)

end Arguments

namespace AliasTable

variable {table : AliasTable} {options : Options} {signature : Signature} {binding : Binding}

/-- Apart from the variable of a guard, no local hides the argument list, the runtime package or the
function that is called. -/
theorem captured_of_bind (h : table.bind options signature = .ok binding) :
    ∀ x ∈ binding.captured,
      x = options.kindVar ∨ x ≠ options.args ∧ x ≠ options.runtime ∧ x ≠ signature.name := by
  obtain ⟨layouts, hlayouts, rfl⟩ := bind_eq_ok_iff.mp h
  have hname := (Names.reserved options).mem_used_reserve signature.name
  have hargs := Names.args_mem_used_reserve options signature.name
  have hruntime := Names.runtime_mem_used_reserve options signature.name
  intro x hx
  rw [Arguments.mem_captured_iff hname hargs hruntime] at hx
  refine (Arguments.hidden_fresh hargs hruntime x hx).imp_right fun hnew => ?_
  refine ⟨?_, ?_, ?_⟩ <;> rintro rfl
  · exact hnew hargs
  · exact hnew hruntime
  · exact hnew hname

/-- A bound function captures no name exactly if the layouts of its parameters let nothing be
hidden. -/
theorem bind_captures_nothing_iff (h : table.bind options signature = .ok binding) :
    ∃ layouts, table.layoutParams 0 signature.params = .ok layouts ∧
      (binding.captured = [] ↔
        Arguments.hidden options layouts
          ((Names.reserved options).reserve signature.name) = []) := by
  obtain ⟨layouts, hlayouts, rfl⟩ := bind_eq_ok_iff.mp h
  refine ⟨layouts, hlayouts, ?_⟩
  simp only [List.eq_nil_iff_forall_not_mem]
  refine forall_congr' fun x => not_congr (Arguments.mem_captured_iff ?_ ?_ ?_)
  · exact Names.mem_used_reserve _ _
  · exact Names.args_mem_used_reserve _ _
  · exact Names.runtime_mem_used_reserve _ _

theorem bind_captures_nothing_drawRows : ∃ binding, rows.bind {} drawRows = .ok binding ∧
    Arguments.hidden {} drawLayouts ((Names.reserved {}).reserve "draw") = [] ∧
    binding.captured = [] := by
  have hbind : rows.bind {} drawRows = .ok _ :=
    bind_eq_ok_iff.mpr ⟨drawLayouts, layoutParams_drawRows, rfl⟩
  obtain ⟨layouts, hlayouts, hiff⟩ := bind_captures_nothing_iff hbind
  obtain rfl : drawLayouts = layouts := by simpa [layoutParams_drawRows] using hlayouts
  have hnothing : Arguments.hidden {} drawLayouts ((Names.reserved {}).reserve "draw") = [] := by
    cbv
  exact ⟨_, hbind, hnothing, hiff.mpr hnothing⟩

/-- A manifest of one function, with a parameter that is called like the type of the next one. -/
def castManifest : Manifest :=
  ⟨⟨"p", none⟩, {}, [], [⟨"F", [⟨"int32", "[]int"⟩, ⟨"x", "int32"⟩]⟩]⟩

def castSignature : Signature :=
  ⟨"F", [⟨"int32", .sequence (.named "int") .dynamic⟩, ⟨"x", .named "int32"⟩]⟩

/-- The slice `int32` is in scope where the second parameter is cast to `int32`. -/
theorem bind_captures_cast :
    ¬ ∀ (manifest : Manifest) (project : Project) (signature : Signature) (binding : Binding),
      manifest.lower = .ok project → signature ∈ project.signatures →
      project.table.bind project.options signature = .ok binding → binding.captured = [] := by
  intro h
  have hread : castManifest.lower.toOption.map
      (fun project => (project.options, project.aliases, project.signatures)) =
        some ({}, [], [castSignature]) := by decide +kernel
  cases hlower : castManifest.lower with
  | error faults =>
    rw [hlower] at hread
    cases hread
  | ok project =>
    rw [hlower] at hread
    obtain ⟨name, options, aliases, signatures⟩ := project
    cases hread
    have hbind : (AliasTable.ofList []).bind {} castSignature = .ok _ :=
      bind_eq_ok_iff.mpr ⟨[⟨"int32", .sequence (.sequence (.named "int") .dynamic)
        (.scalar (.named "int") .int) .dynamic⟩, ⟨"x", .scalar (.named "int32") .int32⟩], by cbv,
        rfl⟩
    have hnothing := h castManifest _ castSignature _ hlower (by simp) hbind
    cbv at hnothing
    cases hnothing

end AliasTable

end Unmarshal
