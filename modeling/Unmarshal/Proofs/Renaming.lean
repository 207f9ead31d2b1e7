import Mathlib.Data.Set.Function
import Unmarshal.Proofs.Visibility

/-!
# Renaming of locals

Code with its names replaced. Two bodies of one layout, made under different bases and from
different names in use, declare equally many locals in the same places; a function that takes the
locals of the one to those of the other takes the one body to the other.
-/
namespace Unmarshal

namespace Expr

mutual

/-- An expression with its names replaced. Types, packages and fields have names of their own. -/
def rename (σ : String → String) : Expr → Expr
  | .ident name => .ident (σ name)
  | .int value => .int value
  | .str text => .str text
  | .access value accessor args => .access (rename σ value) accessor (renameAll σ args)
  | .call callee args => .call (rename σ callee) (renameAll σ args)
  | .cast type value => .cast type (rename σ value)
  | .field base name => .field (rename σ base) name
  | .index base position => .index (rename σ base) (rename σ position)
  | .deref pointer => .deref (rename σ pointer)
  | .not operand => .not (rename σ operand)
  | .binary op left right => .binary op (rename σ left) (rename σ right)
  | .absent package kind => .absent package kind
  | .new type => .new type
  | .make type length => .make type (rename σ length)
  | .composite type => .composite type

def renameAll (σ : String → String) : List Expr → List Expr
  | [] => []
  | e :: es => rename σ e :: renameAll σ es

end

section

variable {σ : String → String}

private theorem renameAll_eq_self {es : List Expr}
    (ih : ∀ e ∈ es, (∀ x ∈ e.idents, σ x = x) → e.rename σ = e)
    (h : ∀ x ∈ allIdents es, σ x = x) : renameAll σ es = es := by
  induction es with
  | nil => rfl
  | cons e es ihAll =>
    simp only [allIdents, List.mem_append] at h
    rw [renameAll, ih e (by simp) fun x hx => h x (.inl hx),
      ihAll (fun a ha => ih a (by simp [ha])) fun x hx => h x (.inr hx)]

/-- An expression stays as it is if its names do. -/
theorem rename_eq_self {e : Expr} (h : ∀ x ∈ e.idents, σ x = x) : e.rename σ = e := by
  induction e using Expr.induction with
  | ident name => rw [rename, h name (by simp [idents])]
  | int | str | absent | new | composite => rfl
  | access value accessor args ih ihArgs =>
    simp only [idents, List.mem_append] at h
    rw [rename, ih fun x hx => h x (.inl hx), renameAll_eq_self ihArgs fun x hx => h x (.inr hx)]
  | call callee args ih ihArgs =>
    simp only [idents, List.mem_append] at h
    rw [rename, ih fun x hx => h x (.inl hx), renameAll_eq_self ihArgs fun x hx => h x (.inr hx)]
  | cast type value ih => rw [rename, ih h]
  | field base name ih => rw [rename, ih h]
  | deref pointer ih => rw [rename, ih h]
  | not operand ih => rw [rename, ih h]
  | make type length ih => rw [rename, ih h]
  | index base position ih ihPosition =>
    simp only [idents, List.mem_append] at h
    rw [rename, ih fun x hx => h x (.inl hx), ihPosition fun x hx => h x (.inr hx)]
  | binary op left right ih ihRight =>
    simp only [idents, List.mem_append] at h
    rw [rename, ih fun x hx => h x (.inl hx), ihRight fun x hx => h x (.inr hx)]

@[simp] theorem rename_id (e : Expr) : e.rename id = e :=
  rename_eq_self fun _ _ => rfl

@[simp] theorem rename_ask (e : Expr) (accessor : Accessor) :
    (e.ask accessor).rename σ = (e.rename σ).ask accessor := rfl

@[simp] theorem rename_property (e : Expr) (name : String) :
    (e.property name).rename σ = (e.rename σ).property name := rfl

@[simp] theorem rename_element (e : Expr) (counter : String) :
    (e.element counter).rename σ = (e.rename σ).element (σ counter) := rfl

@[simp] theorem rename_read (type : Scalar) (e : Expr) :
    (type.read e).rename σ = type.read (e.rename σ) := by
  unfold Scalar.read
  cases type.cast? <;> rfl

end

end Expr

namespace Stmt

mutual

/-- A statement with its names replaced, where they are declared and where they are used. -/
def rename (σ : String → String) : Stmt → Stmt
  | .declare name type => .declare (σ name) type
  | .define name value => .define (σ name) (value.rename σ)
  | .assign target value => .assign (target.rename σ) (value.rename σ)
  | .branch none condition body => .branch none (condition.rename σ) (renameAll σ body)
  | .branch (some init) condition body =>
    .branch (some (rename σ init)) (condition.rename σ) (renameAll σ body)
  | .loop counter bound body => .loop (σ counter) (bound.rename σ) (renameAll σ body)

def renameAll (σ : String → String) : List Stmt → List Stmt
  | [] => []
  | s :: rest => rename σ s :: renameAll σ rest

end

theorem renameAll_append (σ : String → String) (a b : List Stmt) :
    renameAll σ (a ++ b) = renameAll σ a ++ renameAll σ b := by
  induction a with
  | nil => rfl
  | cons s rest ih => simp [renameAll, ih]

mutual

@[simp] theorem rename_id : (s : Stmt) → s.rename id = s
  | .declare _ _ => rfl
  | .define _ _ => by simp [rename]
  | .assign _ _ => by simp [rename]
  | .branch none _ body => by simp [rename, renameAll_id body]
  | .branch (some init) _ body => by simp [rename, rename_id init, renameAll_id body]
  | .loop _ _ body => by simp [rename, renameAll_id body]

@[simp] theorem renameAll_id : (code : List Stmt) → renameAll id code = code
  | [] => rfl
  | s :: rest => by rw [renameAll, rename_id s, renameAll_id rest]

end

@[simp] theorem rename_whenPresent {σ : String → String} {options : Options}
    (h : σ options.kindVar = options.kindVar) (source : Expr) (body : List Stmt) :
    (options.whenPresent source body).rename σ =
      options.whenPresent (source.rename σ) (renameAll σ body) := by
  simp [Options.whenPresent, Options.isKind, rename, Expr.rename, h]

end Stmt

/-- A resolution with its names replaced. -/
def Resolution.rename (σ : String → String) (resolution : Resolution) : Resolution :=
  ⟨Stmt.renameAll σ resolution.code, resolution.value.rename σ⟩

namespace Layout

variable {options : Options}

mutual

/-- The names that filling a place asks for, in order, if none of them is taken. -/
def wanted (base : String) : Layout → List String
  | .scalar _ _ => []
  | .optional _ pointee => wanted (base ++ "Elt") pointee
  | .sequence _ elem (.fixed _) => (base ++ "Idx") :: wanted (base ++ "Elt") elem
  | .sequence _ elem .dynamic =>
    (base ++ "Len") :: (base ++ "Idx") :: wanted (base ++ "Elt") elem
  | .record _ fields => wantedOfFields base fields

def wantedOfFields (base : String) : List (Field Layout) → List String
  | [] => []
  | ⟨name, type⟩ :: fields => wanted (base ++ name) type ++ wantedOfFields base fields

end

private theorem length_allLocals_fillFields {fields : List (Field Layout)} {base other : String}
    (ih : ∀ f ∈ fields, ∀ base other source target names,
      (Stmt.allLocals (f.type.fill options base source target names).1).length =
        (f.type.wanted other).length)
    (source target : Expr) (names : Names) :
    (Stmt.allLocals (fillFields options base source target fields names).1).length =
      (wantedOfFields other fields).length := by
  induction fields generalizing names with
  | nil => rfl
  | cons f fields ihFields =>
    obtain ⟨name, type⟩ := f
    rw [fillFields, wantedOfFields, Stmt.allLocals_append, List.length_append, List.length_append,
      ih ⟨name, type⟩ (by simp) _ (other ++ name), ihFields fun f hf => ih f (by simp [hf])]

/-- How many locals a layout needs does not depend on how they are named. -/
theorem length_allLocals_fill (layout : Layout) (base other : String) (source target : Expr)
    (names : Names) : (Stmt.allLocals (layout.fill options base source target names).1).length =
      (layout.wanted other).length := by
  induction layout using Layout.induction generalizing base other source target names with
  | scalar declared type => rfl
  | optional declared pointee ih =>
    simpa [fill, wanted, Stmt.allLocals, Stmt.locals] using
      ih (base ++ "Elt") (other ++ "Elt") source (.deref target) names
  | sequence declared elem extent ih =>
    cases extent <;>
      simp [fill, wanted, Stmt.allLocals, Stmt.locals, ih _ (other ++ "Elt")]
  | record declared fields ih => exact length_allLocals_fillFields ih source target names

/-- A function that takes the locals of a body to those of another body, and the source and the
target of the one to those of the other, takes the one body to the other. -/
def Renames (options : Options) (σ : String → String) (layout : Layout) : Prop :=
  ∀ (base other : String) (source target : Expr) (names others : Names),
    (Stmt.allLocals (layout.fill options base source target names).1).map σ =
      Stmt.allLocals
        (layout.fill options other (source.rename σ) (target.rename σ) others).1 →
    (layout.fill options other (source.rename σ) (target.rename σ) others).1 =
      Stmt.renameAll σ (layout.fill options base source target names).1

private theorem fillFields_rename {σ : String → String} {fields : List (Field Layout)}
    (ih : ∀ f ∈ fields, f.type.Renames options σ) (base other : String) (source target : Expr)
    (names others : Names)
    (h : (Stmt.allLocals (fillFields options base source target fields names).1).map σ =
      Stmt.allLocals
        (fillFields options other (source.rename σ) (target.rename σ) fields others).1) :
    (fillFields options other (source.rename σ) (target.rename σ) fields others).1 =
      Stmt.renameAll σ (fillFields options base source target fields names).1 := by
  induction fields generalizing names others with
  | nil => rfl
  | cons f fields ihFields =>
    obtain ⟨name, type⟩ := f
    simp only [fillFields, Stmt.allLocals_append, List.map_append] at h
    obtain ⟨hfirst, hrest⟩ := List.append_inj h (by
      rw [List.length_map, length_allLocals_fill _ _ "", length_allLocals_fill _ _ ""])
    have hname := ih ⟨name, type⟩ (by simp) (base ++ name) (other ++ name) (source.property name)
      (.field target name) names others hfirst
    have hothers := ihFields (fun f hf => ih f (by simp [hf])) _ _ hrest
    simp only [fillFields, Stmt.renameAll_append]
    rw [← hname, ← hothers]
    rfl

/-- The elements of a sequence are filled below a counter, which is the first of the locals. -/
private theorem elements_rename {σ : String → String} {elem : Layout}
    (ih : elem.Renames options σ) {base other : String} {source target : Expr}
    {counter counter' : String} {names others : Names}
    (h : (counter :: Stmt.allLocals (elem.fill options base (source.element counter)
        (.index target (.ident counter)) names).1).map σ =
      counter' :: Stmt.allLocals (elem.fill options other ((source.rename σ).element counter')
        (.index (target.rename σ) (.ident counter')) others).1) :
    σ counter = counter' ∧
      (elem.fill options other ((source.rename σ).element counter')
        (.index (target.rename σ) (.ident counter')) others).1 =
      Stmt.renameAll σ (elem.fill options base (source.element counter)
        (.index target (.ident counter)) names).1 := by
  obtain ⟨rfl, hinner⟩ := List.cons.inj h
  exact ⟨rfl, ih base other (source.element counter) (.index target (.ident counter)) names others
    hinner⟩

theorem fill_rename {σ : String → String} (hkind : σ options.kindVar = options.kindVar)
    (layout : Layout) : layout.Renames options σ := by
  induction layout using Layout.induction with
  | scalar declared type =>
    intro base other source target names others _
    simp [fill, Stmt.renameAll, Stmt.rename]
  | optional declared pointee ih =>
    intro base other source target names others h
    have hinner := ih (base ++ "Elt") (other ++ "Elt") source (.deref target) names others
      (by simpa [fill, Stmt.allLocals, Stmt.locals, Expr.rename] using h)
    simp only [fill, Stmt.renameAll, Stmt.rename_whenPresent hkind, Stmt.rename, ← hinner,
      Expr.rename]
  | sequence declared elem extent ih =>
    intro base other source target names others h
    cases extent with
    | fixed length =>
      simp only [fill, Stmt.allLocals, Stmt.locals, List.append_nil] at h
      obtain ⟨hcounter, hinner⟩ := elements_rename ih h
      simp only [fill, Stmt.renameAll, Stmt.rename, Expr.rename, hcounter, hinner]
    | dynamic =>
      simp only [fill, Stmt.allLocals, Stmt.locals, List.append_nil, List.nil_append,
        List.cons_append] at h
      obtain ⟨hlength, helements⟩ := List.cons.inj h
      obtain ⟨hcounter, hinner⟩ := elements_rename ih helements
      simp only [fill, Stmt.renameAll, Stmt.rename, Expr.rename, Expr.rename_ask, hlength, hcounter,
        hinner]
  | record declared fields ih =>
    intro base other source target names others h
    exact fillFields_rename ih base other source target names others h

/-- A place is filled under its own name, which is the first of the locals. -/
private theorem placed_rename {σ : String → String} {layout : Layout}
    (hfill : layout.Renames options σ) {place place' : String} {source : Expr}
    {names others : Names}
    (h : (place :: Stmt.allLocals (layout.fill options place source (.ident place) names).1).map σ =
      place' :: Stmt.allLocals
        (layout.fill options place' (source.rename σ) (.ident place') others).1) :
    σ place = place' ∧
      (layout.fill options place' (source.rename σ) (.ident place') others).1 =
        Stmt.renameAll σ (layout.fill options place source (.ident place) names).1 := by
  obtain ⟨rfl, hinner⟩ := List.cons.inj h
  exact ⟨rfl, hfill place (σ place) source (.ident place) names others hinner⟩

/-- What `Renames` says of filling a place, said of binding a value. -/
theorem bind_rename {σ : String → String} (hkind : σ options.kindVar = options.kindVar)
    (layout : Layout) (base other : String) (source : Expr) (names others : Names)
    (h : (Stmt.allLocals (layout.bind options base source names).1.code).map σ =
      Stmt.allLocals (layout.bind options other (source.rename σ) others).1.code) :
    (layout.bind options other (source.rename σ) others).1 =
      (layout.bind options base source names).1.rename σ := by
  have hfill := layout.fill_rename hkind
  cases layout with
  | scalar declared type => simp [bind, Resolution.rename, Stmt.renameAll]
  | optional | record =>
    simp only [bind, Stmt.allLocals, Stmt.locals, List.cons_append, List.nil_append] at h
    obtain ⟨hplace, hrest⟩ := placed_rename hfill h
    simp only [bind, Resolution.rename, Stmt.renameAll, Stmt.rename, Expr.rename, hplace, hrest]
  | sequence declared elem extent =>
    cases extent with
    | fixed length =>
      simp only [bind, Stmt.allLocals, Stmt.locals, List.cons_append, List.nil_append] at h
      obtain ⟨hplace, hrest⟩ := placed_rename hfill h
      simp only [bind, Resolution.rename, Stmt.renameAll, Stmt.rename, Expr.rename, hplace, hrest]
    | dynamic =>
      simp only [bind, Stmt.allLocals, Stmt.locals, List.append_nil, List.nil_append,
        List.cons_append] at h
      obtain ⟨hlength, hplaced⟩ := List.cons.inj h
      obtain ⟨hplace, helements⟩ := List.cons.inj hplaced
      have htarget : Expr.ident (others.claim other).1 =
          (Expr.ident (names.claim base).1).rename σ := by rw [Expr.rename, hplace]
      rw [htarget] at helements
      obtain ⟨hcounter, hinner⟩ := elements_rename (elem.fill_rename hkind) helements
      rw [← htarget] at hinner
      simp only [bind, Resolution.rename, Stmt.renameAll, Stmt.rename, Expr.rename,
        Expr.rename_ask, hlength, hplace, hcounter, hinner]

end Layout

end Unmarshal
