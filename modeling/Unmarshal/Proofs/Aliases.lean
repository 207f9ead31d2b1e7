import Mathlib.Logic.Relation
import Unmarshal.Layout.Emit

/-!
# Reachable aliases

A shape has a layout exactly if every alias it reaches has an entry and none of them reaches
itself. Cycles are looked for on the path of expansion only, so the path has to be tied to what
the graph of the aliases says.
-/
namespace Unmarshal

namespace Shape

mutual

/-- The names at the leaves of a shape, in order. -/
def names : Shape → List String
  | .named name => [name]
  | .optional pointee => names pointee
  | .sequence elem _ => names elem
  | .record fields => namesOfFields fields

def namesOfFields : List (Field Shape) → List String
  | [] => []
  | ⟨_, type⟩ :: fields => names type ++ namesOfFields fields

end

theorem mem_namesOfFields {fields : List (Field Shape)} {name : String} :
    name ∈ namesOfFields fields ↔ ∃ f ∈ fields, name ∈ f.type.names := by
  induction fields with
  | nil => simp [namesOfFields]
  | cons f fields ih =>
    obtain ⟨fieldName, type⟩ := f
    simp [namesOfFields, ih]

/-- The names in a shape that are not built in. -/
def aliases (shape : Shape) : List String :=
  shape.names.filter fun name => (Scalar.ofName? name).isNone

theorem mem_aliases {shape : Shape} {name : String} :
    name ∈ shape.aliases ↔ name ∈ shape.names ∧ Scalar.ofName? name = none := by
  simp [aliases]

private theorem layoutFields_ok_iff {leaf : String → Except ResolveError Layout}
    {fields : List (Field Shape)}
    (ih : ∀ f ∈ fields, (∃ layout, f.type.layoutWith leaf = .ok layout) ↔
      ∀ name ∈ f.type.names, ∃ layout, leaf name = .ok layout) :
    (∃ layouts, layoutFields leaf fields = .ok layouts) ↔
      ∀ name ∈ namesOfFields fields, ∃ layout, leaf name = .ok layout := by
  induction fields with
  | nil => simp [layoutFields, namesOfFields]
  | cons f fields ihFields =>
    obtain ⟨fieldName, type⟩ := f
    have hHead := ih ⟨fieldName, type⟩ (by simp)
    have hTail := ihFields fun f hf => ih f (by simp [hf])
    simp only [namesOfFields, List.mem_append]
    constructor
    · rintro ⟨layouts, h⟩ name hname
      simp only [layoutFields] at h
      split at h
      · next layout hl =>
        split at h
        · next rest hr =>
          rcases hname with hname | hname
          · exact hHead.mp ⟨layout, hl⟩ name hname
          · exact hTail.mp ⟨rest, hr⟩ name hname
        · cases h
      · cases h
    · intro h
      obtain ⟨layout, hl⟩ := hHead.mpr fun name hname => h name (.inl hname)
      obtain ⟨rest, hr⟩ := hTail.mpr fun name hname => h name (.inr hname)
      exact ⟨_, by simp only [layoutFields, hl, hr]; rfl⟩

theorem layoutWith_ok_iff {leaf : String → Except ResolveError Layout} (shape : Shape) :
    (∃ layout, shape.layoutWith leaf = .ok layout) ↔
      ∀ name ∈ shape.names, ∃ layout, leaf name = .ok layout := by
  induction shape using Shape.induction with
  | named name => simp [layoutWith, names]
  | optional pointee ih =>
    simp only [names, ← ih]
    cases h : pointee.layoutWith leaf <;> simp [layoutWith, h]
  | sequence elem extent ih =>
    simp only [names, ← ih]
    cases h : elem.layoutWith leaf <;> simp [layoutWith, h]
  | record fields ih =>
    simp only [names, ← layoutFields_ok_iff ih]
    cases h : layoutFields leaf fields <;> simp [layoutWith, h]

end Shape

namespace AliasTable

open Relation

/-- The first alias has an entry in which the second occurs. -/
def Mentions (table : AliasTable) (first second : String) : Prop :=
  ∃ shape, table.find? first = some shape ∧ second ∈ shape.aliases

/-- The aliases of a shape, and those that occur in the entries of reached ones. -/
def Reaches (table : AliasTable) (shape : Shape) (name : String) : Prop :=
  ∃ first ∈ shape.aliases, ReflTransGen table.Mentions first name

/-- An alias whose reach holds neither a name without an entry nor a cycle. -/
def WellDefined (table : AliasTable) (name : String) : Prop :=
  ∀ reached, ReflTransGen table.Mentions name reached →
    (table.find? reached).isSome ∧ ¬ TransGen table.Mentions reached reached

theorem WellDefined.mentions {table : AliasTable} {first second : String}
    (h : table.WellDefined first) (hm : table.Mentions first second) :
    table.WellDefined second :=
  fun reached hr => h reached (.head hm hr)

theorem WellDefined.of_entry {table : AliasTable} {name : String} {shape : Shape}
    (hfind : table.find? name = some shape)
    (h : ∀ inner ∈ shape.aliases, table.WellDefined inner) : table.WellDefined name := by
  have hinner : ∀ inner, table.Mentions name inner → table.WellDefined inner := by
    rintro inner ⟨entry, hentry, hmem⟩
    rw [hfind, Option.some.injEq] at hentry
    subst hentry
    exact h inner hmem
  intro reached hr
  rcases ReflTransGen.cases_head hr with rfl | ⟨inner, hm, hr⟩
  · refine ⟨by simp [hfind], fun hcycle => ?_⟩
    -- a cycle through the name goes on to an alias of its entry, which reaches the name again
    obtain ⟨inner, hm, hback⟩ := TransGen.head'_iff.mp hcycle
    exact (hinner inner hm inner .refl).2 (.tail' hback hm)
  · exact hinner inner hm reached hr

theorem wellDefined_of_follow {table : AliasTable} {path : List String} {name : String}
    {layout : Layout} (hn : Scalar.ofName? name = none)
    (h : table.follow path name = .ok layout) : table.WellDefined name := by
  revert hn
  apply follow_ok_induction (motive := fun _ name _ =>
    Scalar.ofName? name = none → table.WellDefined name) _ _ h
  · intro path name type hs hn
    rw [hs] at hn
    cases hn
  · intro path name shape layout _ hp hf hl ih _
    apply WellDefined.of_entry hf
    intro leaf ha
    obtain ⟨hmem, hnone⟩ := Shape.mem_aliases.mp ha
    obtain ⟨found, hfollow⟩ := (Shape.layoutWith_ok_iff shape).mp ⟨layout, hl⟩ leaf hmem
    exact ih leaf found hfollow hnone

/-- A well-defined alias can be followed on every path whose names all reach it: such a name is
not met again, since the cycle would lie in the reach of the alias. -/
theorem exists_follow {table : AliasTable} {path : List String} {name : String}
    (hn : Scalar.ofName? name = none) (hpath : ∀ p ∈ path, TransGen table.Mentions p name)
    (hw : table.WellDefined name) : ∃ layout, table.follow path name = .ok layout := by
  induction path, name using table.followInduction with
  | scalar path name s hs => rw [hs] at hn; cases hn
  | visited path name _ hp => exact absurd (hpath name hp) (hw name .refl).2
  | unknown path name _ hp hf => simpa [hf] using (hw name .refl).1
  | entry path name shape _ hp hf ih =>
    have hleaves : ∀ inner ∈ shape.names,
        ∃ layout, table.follow (name :: path) inner = .ok layout := by
      intro inner hmem
      cases hs : Scalar.ofName? inner with
      | some s => exact ⟨_, follow_scalar hs⟩
      | none =>
        have hm : table.Mentions name inner := ⟨shape, hf, Shape.mem_aliases.mpr ⟨hmem, hs⟩⟩
        apply ih inner hs
        · intro p hp
          rcases List.mem_cons.mp hp with rfl | hp
          · exact .single hm
          · exact .tail (hpath p hp) hm
        · exact hw.mentions hm
    obtain ⟨layout, hl⟩ := (Shape.layoutWith_ok_iff shape).mpr hleaves
    exact ⟨_, by rw [follow_entry hn hp hf, hl]; rfl⟩

/-- A shape has a layout exactly if all its aliases are well-defined. -/
theorem layout_ok_iff (table : AliasTable) (shape : Shape) :
    (∃ layout, table.layout shape = .ok layout) ↔
      ∀ name ∈ shape.aliases, table.WellDefined name := by
  rw [layout, Shape.layoutWith_ok_iff]
  constructor
  · intro h name hname
    obtain ⟨hmem, hnone⟩ := Shape.mem_aliases.mp hname
    obtain ⟨layout, hl⟩ := h name hmem
    exact wellDefined_of_follow hnone hl
  · intro h name hmem
    cases hs : Scalar.ofName? name with
    | some s => exact ⟨_, follow_scalar hs⟩
    | none => exact exists_follow hs (by simp) (h name (Shape.mem_aliases.mpr ⟨hmem, hs⟩))

theorem wellDefined_aliases_iff {table : AliasTable} {shape : Shape} :
    (∀ name ∈ shape.aliases, table.WellDefined name) ↔
      ∀ name, table.Reaches shape name →
        (table.find? name).isSome ∧ ¬ TransGen table.Mentions name name := by
  constructor
  · rintro h name ⟨first, hfirst, hr⟩
    exact h first hfirst name hr
  · intro h first hfirst name hr
    exact h name ⟨first, hfirst, hr⟩

theorem resolve_eq_error_iff (table : AliasTable) (options : Options) (base : String)
    (shape : Shape) (source : Expr) (target : Option Expr) (e : ResolveError) :
    table.resolve options base shape source target = .error e ↔ table.layout shape = .error e := by
  unfold resolve
  cases table.layout shape <;> simp

theorem resolve_ok_iff (table : AliasTable) (options : Options) (base : String)
    (shape : Shape) (source : Expr) (target : Option Expr) :
    (∃ resolution, table.resolve options base shape source target = .ok resolution) ↔
      ∃ layout, table.layout shape = .ok layout := by
  unfold resolve
  cases table.layout shape <;> simp

/-- Resolution succeeds exactly if every reached alias has an entry and none lies on a cycle, and
how it ends is decided by the table and the shape alone. -/
theorem resolve_succeeds_iff_wellDefined (table : AliasTable) (shape : Shape) (options : Options)
    (base : String) (source : Expr) (target : Option Expr) :
    ((∃ resolution, table.resolve options base shape source target = .ok resolution) ↔
      (∀ name, table.Reaches shape name → (table.find? name).isSome) ∧
        ¬ ∃ name, table.Reaches shape name ∧ TransGen table.Mentions name name) ∧
    ∀ (options' : Options) (base' : String) (source' : Expr) (target' : Option Expr)
      (e : ResolveError),
      table.resolve options base shape source target = .error e ↔
        table.resolve options' base' shape source' target' = .error e := by
  constructor
  · rw [resolve_ok_iff, layout_ok_iff, wellDefined_aliases_iff]
    constructor
    · intro h
      refine ⟨fun name hr => (h name hr).1, ?_⟩
      rintro ⟨name, hr, hcycle⟩
      exact (h name hr).2 hcycle
    · rintro ⟨hentry, hacyclic⟩ name hr
      exact ⟨hentry name hr, fun hcycle => hacyclic ⟨name, hr, hcycle⟩⟩
  · intro options' base' source' target' e
    rw [resolve_eq_error_iff, resolve_eq_error_iff]

end AliasTable

end Unmarshal
