import Unmarshal.Proofs.Freshness

/-!
# What code writes

Converted code assigns to the place that it fills and below it, and nowhere else. Code that is given
a place declares lengths and counters only; code that binds a value declares one storage for it.
-/
namespace Unmarshal

namespace Expr

/-- The second place is the first one or is reached from it, by what a pointer points to, by fields
and by elements at the given counters. -/
inductive Below (counters : List String) (place : Expr) : Expr → Prop
  | self : Below counters place place
  | deref {e : Expr} : Below counters place e → Below counters place (.deref e)
  | field {e : Expr} (name : String) :
      Below counters place e → Below counters place (.field e name)
  | index {e : Expr} {counter : String} : Below counters place e → counter ∈ counters →
      Below counters place (.index e (.ident counter))

theorem Below.mono {counters others : List String} {place e : Expr} (h : Below counters place e)
    (hsub : counters ⊆ others) : Below others place e := by
  induction h with
  | self => exact .self
  | deref _ ih => exact ih.deref
  | field name _ ih => exact ih.field name
  | index _ hmem ih => exact ih.index (hsub hmem)

/-- The second expression is the first one or a part of it, by properties and elements. -/
inductive PartOf (source : Expr) : Expr → Prop
  | self : PartOf source source
  | property {e : Expr} (name : String) : PartOf source e → PartOf source (e.property name)
  | element {e : Expr} (counter : String) : PartOf source e → PartOf source (e.element counter)

theorem PartOf.trans {first second third : Expr} (h : PartOf first second)
    (k : PartOf second third) : PartOf first third := by
  induction k with
  | self => exact h
  | property name _ ih => exact ih.property name
  | element counter _ ih => exact ih.element counter

end Expr

/-- What a local is declared for: to store a converted value, to hold the length of a dynamic value,
to count, or to hold another value. -/
inductive Role where
  | storage
  | length (source : Expr)
  | counter
  | value
deriving Repr

/-- The role of a local that is defined by an expression. -/
def Expr.role : Expr → Role
  | .composite _ | .make _ _ | .new _ => .storage
  | .access source .length [] => .length source
  | _ => .value

@[simp] theorem Expr.role_length (source : Expr) : (source.ask .length).role = .length source := rfl

/-- A declared local. -/
structure Local where
  name : String
  role : Role
deriving Repr

/-- An assignment: its target, and the counters of the loops around it. -/
structure Write where
  counters : List String
  target : Expr
deriving Repr

namespace Stmt

mutual

/-- The assignments in a statement, inside loops with the given counters. -/
def writes (counters : List String) : Stmt → List Write
  | .declare _ _ | .define _ _ => []
  | .assign target _ => [⟨counters, target⟩]
  | .branch none _ body => allWrites counters body
  | .branch (some init) _ body => writes counters init ++ allWrites counters body
  | .loop counter _ body => allWrites (counter :: counters) body

def allWrites (counters : List String) : List Stmt → List Write
  | [] => []
  | s :: rest => writes counters s ++ allWrites counters rest

end

mutual

/-- The locals that a statement declares at any depth, each with its role. The variable of a guard
is not one. -/
def declared : Stmt → List Local
  | .declare name _ => [⟨name, .storage⟩]
  | .define name value => [⟨name, value.role⟩]
  | .assign _ _ => []
  | .branch none _ body | .branch (some (.define _ _)) _ body => allDeclared body
  | .branch (some init) _ body => declared init ++ allDeclared body
  | .loop counter _ body => ⟨counter, .counter⟩ :: allDeclared body

def allDeclared : List Stmt → List Local
  | [] => []
  | s :: rest => declared s ++ allDeclared rest

end

theorem allWrites_append (counters : List String) (first second : List Stmt) :
    allWrites counters (first ++ second) =
      allWrites counters first ++ allWrites counters second := by
  induction first with
  | nil => rfl
  | cons s rest ih => simp [allWrites, ih]

theorem allDeclared_append (first second : List Stmt) :
    allDeclared (first ++ second) = allDeclared first ++ allDeclared second := by
  induction first with
  | nil => rfl
  | cons s rest ih => simp [allDeclared, ih]

@[simp] theorem writes_whenPresent (counters : List String) (options : Options) (source : Expr)
    (body : List Stmt) :
    (options.whenPresent source body).writes counters = allWrites counters body := by
  simp [Options.whenPresent, writes]

@[simp] theorem declared_whenPresent (options : Options) (source : Expr) (body : List Stmt) :
    (options.whenPresent source body).declared = allDeclared body := by
  simp [Options.whenPresent, declared]

mutual

theorem map_name_declared : (s : Stmt) → s.declared.map Local.name = s.locals
  | .declare _ _ | .define _ _ | .assign _ _ => rfl
  | .branch none _ body => by
    simp [declared, locals, map_name_allDeclared body]
  | .branch (some init) _ body => by
    have hinit := map_name_declared init
    have hbody := map_name_allDeclared body
    cases init <;> simp_all [declared, locals]
  | .loop counter _ body => by
    simp [declared, locals, map_name_allDeclared body]

/-- The locals with their roles are the locals. -/
theorem map_name_allDeclared :
    (code : List Stmt) → (allDeclared code).map Local.name = allLocals code
  | [] => rfl
  | s :: rest => by
    rw [allDeclared, allLocals, List.map_append, map_name_declared s, map_name_allDeclared rest]

end

end Stmt

namespace Layout

variable {options : Options}

private theorem fillFields_writes {fields : List (Field Layout)} {place : Expr}
    (ih : ∀ f ∈ fields, ∀ base source target names counters, place.Below counters target →
      ∀ w ∈ Stmt.allWrites counters (f.type.fill options base source target names).1,
        place.Below w.counters w.target)
    {base : String} {source target : Expr} {names : Names} {counters : List String}
    (h : place.Below counters target) :
    ∀ w ∈ Stmt.allWrites counters (fillFields options base source target fields names).1,
      place.Below w.counters w.target := by
  induction fields generalizing names with
  | nil => simp [fillFields, Stmt.allWrites]
  | cons f fields ihFields =>
    obtain ⟨name, type⟩ := f
    simp only [fillFields, Stmt.allWrites_append]
    intro w hw
    rcases List.mem_append.mp hw with hw | hw
    · exact ih ⟨name, type⟩ (by simp) _ _ _ _ _ (h.field name) w hw
    · exact ihFields (fun f hf => ih f (by simp [hf])) w hw

/-- Filling a place writes to it and below it only. -/
theorem fill_writes (layout : Layout) {place : Expr} {base : String} {source target : Expr}
    {names : Names} {counters : List String} (h : place.Below counters target) :
    ∀ w ∈ Stmt.allWrites counters (layout.fill options base source target names).1,
      place.Below w.counters w.target := by
  induction layout using Layout.induction generalizing base source target names counters with
  | scalar declared type => simpa [fill, Stmt.allWrites, Stmt.writes] using h
  | optional declared pointee ih =>
    simp only [fill, Stmt.allWrites, Stmt.writes_whenPresent, Stmt.writes, List.append_nil,
      List.cons_append, List.nil_append, List.forall_mem_cons]
    exact ⟨h, ih h.deref⟩
  | sequence declared elem extent ih =>
    cases extent with
    | fixed length =>
      simp only [fill, Stmt.allWrites, Stmt.writes, List.append_nil]
      apply ih
      exact (h.mono (List.subset_cons_self _ _)).index (by simp)
    | dynamic =>
      simp only [fill, Stmt.allWrites, Stmt.writes, List.append_nil, List.nil_append,
        List.cons_append, List.forall_mem_cons]
      refine ⟨h, ?_⟩
      apply ih
      exact (h.mono (List.subset_cons_self _ _)).index (by simp)
  | record declared fields ih =>
    exact fillFields_writes (fun f hf _ _ _ _ _ hbelow => ih f hf hbelow) h

/-- A local holds the length of a part of the source, or counts. -/
def Measures (source : Expr) (l : Local) : Prop :=
  (∃ part, source.PartOf part ∧ l.role = .length part) ∨ l.role = .counter

theorem Measures.part {source part : Expr} {l : Local} (h : Measures part l)
    (hpart : source.PartOf part) : Measures source l := by
  rcases h with ⟨inner, hinner, hrole⟩ | hcounter
  · exact .inl ⟨inner, hpart.trans hinner, hrole⟩
  · exact .inr hcounter

private theorem fillFields_measures {fields : List (Field Layout)}
    (ih : ∀ f ∈ fields, ∀ base source target names,
      ∀ l ∈ Stmt.allDeclared (f.type.fill options base source target names).1, Measures source l)
    (base : String) (source target : Expr) (names : Names) :
    ∀ l ∈ Stmt.allDeclared (fillFields options base source target fields names).1,
      Measures source l := by
  induction fields generalizing names with
  | nil => simp [fillFields, Stmt.allDeclared]
  | cons f fields ihFields =>
    obtain ⟨name, type⟩ := f
    simp only [fillFields, Stmt.allDeclared_append]
    intro l hl
    rcases List.mem_append.mp hl with hl | hl
    · exact (ih ⟨name, type⟩ (by simp) _ _ _ _ l hl).part (.property name .self)
    · exact ihFields (fun f hf => ih f (by simp [hf])) _ l hl

/-- Filling a place declares lengths and counters only. -/
theorem fill_measures (layout : Layout) (base : String) (source target : Expr) (names : Names) :
    ∀ l ∈ Stmt.allDeclared (layout.fill options base source target names).1,
      Measures source l := by
  induction layout using Layout.induction generalizing base source target names with
  | scalar declared type => simp [fill, Stmt.allDeclared, Stmt.declared]
  | optional declared pointee ih =>
    simpa [fill, Stmt.allDeclared, Stmt.declared] using
      ih (base ++ "Elt") source (.deref target) names
  | sequence declared elem extent ih =>
    have helem : ∀ base counter target names, ∀ l ∈ Stmt.allDeclared
        (elem.fill options base (source.element counter) target names).1, Measures source l := by
      intro base counter target names l hl
      exact (ih base _ target names l hl).part (.element counter .self)
    cases extent with
    | fixed length =>
      simp only [fill, Stmt.allDeclared, Stmt.declared, List.append_nil, List.forall_mem_cons]
      exact ⟨.inr rfl, helem _ _ _ _⟩
    | dynamic =>
      simp only [fill, Stmt.allDeclared, Stmt.declared, List.append_nil, List.nil_append,
        List.cons_append, List.forall_mem_cons, Expr.role_length]
      exact ⟨.inl ⟨source, .self, rfl⟩, .inr rfl, helem _ _ _ _⟩
  | record declared fields ih =>
    apply fillFields_measures
    intro f hf base source target names
    exact ih f hf base source target names

theorem Measures.ne_storage {source : Expr} {l : Local} (h : Measures source l) :
    l.role ≠ .storage := by
  rcases h with ⟨part, -, hrole⟩ | hrole <;> rw [hrole] <;> intro hstorage <;> cases hstorage

end Layout

/-- The code declares this storage and no other, and writes to it and below it only. -/
structure Stmt.Stores (code : List Stmt) (place : String) : Prop where
  declared : ⟨place, .storage⟩ ∈ allDeclared code
  only : ∀ l ∈ allDeclared code, l.role = .storage → l.name = place
  writes : ∀ w ∈ allWrites [] code, (Expr.ident place).Below w.counters w.target

namespace Layout

variable {options : Options}

/-- Storage that is declared first and then filled. -/
private theorem stores_fill (layout : Layout) {place base : String} {source : Expr} {names : Names}
    {declaration : Stmt} (hdeclared : declaration.declared = [⟨place, .storage⟩])
    (hwrites : declaration.writes [] = []) :
    Stmt.Stores (declaration :: (layout.fill options base source (.ident place) names).1)
      place where
  declared := by simp [Stmt.allDeclared, hdeclared]
  only := by
    simp only [Stmt.allDeclared, hdeclared, List.cons_append, List.nil_append,
      List.forall_mem_cons, true_implies, true_and]
    intro l hl hstorage
    exact absurd hstorage (layout.fill_measures base source _ names l hl).ne_storage
  writes := by
    simp only [Stmt.allWrites, hwrites, List.nil_append]
    exact layout.fill_writes .self

/-- A value is bound without any code, or to storage that its code declares and writes. -/
theorem bind_stores (layout : Layout) (base : String) (source : Expr) (names : Names) :
    let resolution := (layout.bind options base source names).1
    resolution.code = [] ∨
      ∃ place, resolution.value = .ident place ∧ Stmt.Stores resolution.code place := by
  intro resolution
  cases layout with
  | scalar declared type => exact .inl rfl
  | optional declared pointee => exact .inr ⟨_, rfl, stores_fill _ rfl rfl⟩
  | record declared fields => exact .inr ⟨_, rfl, stores_fill _ rfl rfl⟩
  | sequence declared elem extent =>
    cases extent with
    | fixed length => exact .inr ⟨_, rfl, stores_fill _ rfl rfl⟩
    | dynamic =>
      right
      let place := names.claim base
      let length := place.2.claim (place.1 ++ "Len")
      let counter := length.2.claim (place.1 ++ "Idx")
      have hbelow : (Expr.ident place.1).Below [counter.1]
          (.index (.ident place.1) (.ident counter.1)) := Expr.Below.self.index (by simp)
      refine ⟨place.1, rfl, ?_, ?_, ?_⟩
      · simp [resolution, bind, Stmt.allDeclared, Stmt.declared, place, Expr.role]
      · simp only [resolution, bind, Stmt.allDeclared, Stmt.declared, List.append_nil,
          List.cons_append, List.nil_append, List.forall_mem_cons]
        refine ⟨by simp, fun _ => rfl, by simp, ?_⟩
        intro l hl hstorage
        exact absurd hstorage (elem.fill_measures _ _ _ _ l hl).ne_storage
      · simp only [resolution, bind, Stmt.allWrites, Stmt.writes, List.append_nil, List.nil_append]
        exact elem.fill_writes hbelow

end Layout

end Unmarshal
