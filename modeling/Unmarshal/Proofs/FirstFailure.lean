import Unmarshal.Binding
import Unmarshal.Proofs.Unfolding

/-!
# The first failure

An error spells the way from a parameter to a name that cannot be followed. All that is written
before it resolves, in the order of the parameters and, within them, of the fields; what is
written behind it is not looked at.
-/
namespace Unmarshal

namespace Shape

variable {leaf : String → Except ResolveError Layout}

theorem layoutFields_error {before after : List (Field Shape)} {f : Field Shape}
    {cause : ResolveError} (hbefore : ∀ g ∈ before, ∃ layout, g.type.layoutWith leaf = .ok layout)
    (hf : f.type.layoutWith leaf = .error cause) :
    layoutFields leaf (before ++ f :: after) = .error (.inField f.name f.type cause) := by
  induction before with
  | nil => simp [layoutFields, hf]
  | cons g before ih =>
    obtain ⟨layout, hg⟩ := hbefore g (by simp)
    simp [layoutFields, hg, ih fun a ha => hbefore a (by simp [ha])]

/-- Fields fail with the first of them that has no layout. -/
theorem exists_of_layoutFields_error {fields : List (Field Shape)} {e : ResolveError}
    (h : layoutFields leaf fields = .error e) :
    ∃ before f after cause, fields = before ++ f :: after ∧
      (∀ g ∈ before, ∃ layout, g.type.layoutWith leaf = .ok layout) ∧
      f.type.layoutWith leaf = .error cause ∧ e = .inField f.name f.type cause := by
  induction fields with
  | nil => cases h
  | cons f fields ih =>
    simp only [layoutFields] at h
    split at h
    · next layout hl =>
      split at h
      · cases h
      · next hr =>
        cases h
        obtain ⟨before, g, after, cause, rfl, hbefore, hg, rfl⟩ := ih hr
        exact ⟨f :: before, g, after, cause, rfl, by simpa using ⟨⟨layout, hl⟩, hbefore⟩, hg, rfl⟩
    · next cause hl =>
      cases h
      exact ⟨[], f, fields, cause, rfl, by simp, hl, rfl⟩

end Shape

namespace AliasTable

open Relation

variable {table : AliasTable}

/-- A shape resolves, whatever it is read from and wherever its value goes. -/
def Resolves (table : AliasTable) (shape : Shape) : Prop :=
  ∀ (options : Options) (base : String) (source : Expr) (target : Option Expr),
    ∃ resolution, table.resolve options base shape source target = .ok resolution

theorem resolves_iff {shape : Shape} :
    table.Resolves shape ↔ ∃ layout, table.layout shape = .ok layout := by
  constructor
  · intro h
    exact (resolve_ok_iff ..).mp (h {} "" (.ident "") none)
  · intro h options base source target
    exact (resolve_ok_iff ..).mpr h

/-- Parameters fail with the first of them that has no layout. -/
theorem exists_of_layoutParams_error {index : Nat} {params : List Param} {e : ResolveError}
    (h : table.layoutParams index params = .error e) :
    ∃ before param after cause, params = before ++ param :: after ∧
      (∀ p ∈ before, table.Resolves p.shape) ∧ table.layout param.shape = .error cause ∧
      e = .inArgument (index + before.length) param.name param.shape cause := by
  induction params generalizing index with
  | nil => cases h
  | cons param params ih =>
    simp only [layoutParams] at h
    split at h
    · next cause hl =>
      cases h
      exact ⟨[], param, params, cause, rfl, by simp, hl, rfl⟩
    · next layout hl =>
      split at h
      · next hr =>
        cases h
        obtain ⟨before, p, after, cause, rfl, hbefore, hp, rfl⟩ := ih hr
        refine ⟨param :: before, p, after, cause, rfl, ?_, hp, ?_⟩
        · simpa using ⟨resolves_iff.mpr ⟨layout, hl⟩, hbefore⟩
        · simp [Nat.add_assoc, Nat.add_comm 1]
      · cases h

theorem layoutParams_error {index : Nat} {before after : List Param} (param : Param)
    {cause : ResolveError} (hbefore : ∀ p ∈ before, table.Resolves p.shape)
    (hp : table.layout param.shape = .error cause) :
    table.layoutParams index (before ++ param :: after) =
      .error (.inArgument (index + before.length) param.name param.shape cause) := by
  induction before generalizing index with
  | nil => simp [layoutParams, hp]
  | cons p before ih =>
    obtain ⟨layout, hl⟩ := resolves_iff.mp (hbefore p (by simp))
    simp [layoutParams, hl, ih fun a ha => hbefore a (by simp [ha]), Nat.add_assoc,
      Nat.add_comm 1]

/-- The error spells the way from a shape to its first leaf that cannot be followed, where `path`
holds the names that are being expanded, the newest first. Entries add no layer, and of a record
all fields before the failing one resolve. -/
inductive FirstFailure (table : AliasTable) : List String → Shape → ResolveError → Prop where
  | unknown {path : List String} {name : String} (hn : Scalar.ofName? name = none)
      (hp : name ∉ path) (hf : table.find? name = none) :
      FirstFailure table path (.named name) (.unresolved name)
  | visited {path : List String} {name : String} (hn : Scalar.ofName? name = none)
      (hp : name ∈ path) :
      FirstFailure table path (.named name) (.recursiveAlias (cycle path name))
  | entry {path : List String} {name : String} {shape : Shape} {e : ResolveError}
      (hn : Scalar.ofName? name = none) (hp : name ∉ path) (hf : table.find? name = some shape)
      (h : FirstFailure table (name :: path) shape e) : FirstFailure table path (.named name) e
  | pointee {path : List String} {pointee : Shape} {e : ResolveError}
      (h : FirstFailure table path pointee e) :
      FirstFailure table path (.optional pointee) (.inPointee pointee e)
  | element {path : List String} {elem : Shape} {extent : Extent} {e : ResolveError}
      (h : FirstFailure table path elem e) :
      FirstFailure table path (.sequence elem extent) (.inElement elem e)
  | field {path : List String} {before after : List (Field Shape)} {f : Field Shape}
      {e : ResolveError} (hbefore : ∀ g ∈ before, table.Resolves g.type)
      (h : FirstFailure table path f.type e) :
      FirstFailure table path (.record (before ++ f :: after)) (.inField f.name f.type e)

theorem firstFailure_of_layoutWith {path : List String} {shape : Shape} {e : ResolveError}
    (hleaf : ∀ name e, table.follow path name = .error e →
      table.FirstFailure path (.named name) e)
    (h : shape.layoutWith (table.follow path) = .error e) : table.FirstFailure path shape e := by
  induction shape using Shape.induction generalizing e with
  | named name => exact hleaf name e h
  | optional pointee ih =>
    simp only [Shape.layoutWith] at h
    split at h
    · cases h
    · next hl =>
      cases h
      exact .pointee (ih hl)
  | sequence elem extent ih =>
    simp only [Shape.layoutWith] at h
    split at h
    · cases h
    · next hl =>
      cases h
      exact .element (ih hl)
  | record fields ih =>
    simp only [Shape.layoutWith] at h
    split at h
    · cases h
    · next hl =>
      cases h
      obtain ⟨before, f, after, cause, rfl, hbefore, hf, rfl⟩ :=
        Shape.exists_of_layoutFields_error hl
      refine .field ?_ (ih f (by simp) hf)
      intro g hg
      obtain ⟨layout, hlayout⟩ := hbefore g hg
      have hunfold := unfolds_of_layoutWith (fun _ _ => unfolds_of_follow) hlayout
      exact resolves_iff.mpr ⟨layout, hunfold.layout_eq⟩

theorem firstFailure_of_follow {path : List String} {name : String} {e : ResolveError}
    (h : table.follow path name = .error e) : table.FirstFailure path (.named name) e := by
  induction path, name using table.followInduction generalizing e with
  | scalar path name type hs => rw [follow_scalar hs] at h; cases h
  | visited path name hn hp =>
    rw [follow_visited hn hp] at h
    cases h
    exact .visited hn hp
  | unknown path name hn hp hf =>
    rw [follow_unknown hn hp hf] at h
    cases h
    exact .unknown hn hp hf
  | entry path name shape hn hp hf ih =>
    rw [follow_entry hn hp hf] at h
    refine .entry hn hp hf (firstFailure_of_layoutWith (fun inner e => ih inner) ?_)
    cases hl : shape.layoutWith (table.follow (name :: path)) with
    | error cause => rw [hl] at h; cases h; rfl
    | ok layout => rw [hl] at h; cases h

/-- Every name on a path reaches all aliases of a shape, as the names that are being expanded do
where the shape is met. -/
def LeadsTo (table : AliasTable) (path : List String) (shape : Shape) : Prop :=
  ∀ p ∈ path, ∀ name ∈ shape.aliases, TransGen table.Mentions p name

namespace LeadsTo

variable {path : List String}

theorem nil (shape : Shape) : table.LeadsTo [] shape := by
  simp [LeadsTo]

theorem entry {name : String} {shape : Shape} (h : table.LeadsTo path (.named name))
    (hn : Scalar.ofName? name = none) (hf : table.find? name = some shape) :
    table.LeadsTo (name :: path) shape := by
  intro p hp inner hinner
  have hmentions : table.Mentions name inner := ⟨shape, hf, hinner⟩
  rcases List.mem_cons.mp hp with rfl | hp
  · exact .single hmentions
  · exact .tail (h p hp name (by simp [Shape.aliases, Shape.names, hn])) hmentions

theorem field {fields : List (Field Shape)} (h : table.LeadsTo path (.record fields))
    {f : Field Shape} (hf : f ∈ fields) : table.LeadsTo path f.type := by
  intro p hp name hname
  obtain ⟨hmem, hnone⟩ := Shape.mem_aliases.mp hname
  exact h p hp name (Shape.mem_aliases.mpr ⟨Shape.mem_namesOfFields.mpr ⟨f, hf, hmem⟩, hnone⟩)

/-- A shape that resolves has a layout also below the names that lead to it. -/
theorem exists_layoutWith {shape : Shape} (h : table.LeadsTo path shape)
    (hr : table.Resolves shape) : ∃ layout, shape.layoutWith (table.follow path) = .ok layout := by
  have hw := (layout_ok_iff table shape).mp (resolves_iff.mp hr)
  rw [Shape.layoutWith_ok_iff]
  intro name hname
  cases hs : Scalar.ofName? name with
  | some s => exact ⟨_, follow_scalar hs⟩
  | none =>
    have halias : name ∈ shape.aliases := Shape.mem_aliases.mpr ⟨hname, hs⟩
    exact exists_follow hs (fun p hp => h p hp name halias) (hw name halias)

end LeadsTo

namespace FirstFailure

variable {path : List String} {shape : Shape} {e : ResolveError}

/-- The failure that the error spells is the one that is met, below names that lead to the
shape. -/
theorem layoutWith_eq (h : table.FirstFailure path shape e) (hpath : table.LeadsTo path shape) :
    shape.layoutWith (table.follow path) = .error e := by
  induction h with
  | unknown hn hp hf => exact follow_unknown hn hp hf
  | visited hn hp => exact follow_visited hn hp
  | entry hn hp hf _ ih =>
    rw [Shape.layoutWith, follow_entry hn hp hf, ih (hpath.entry hn hf)]
    rfl
  | pointee _ ih =>
    have hpointee := ih hpath
    simp only [Shape.layoutWith, hpointee]
  | element _ ih =>
    have helem := ih hpath
    simp only [Shape.layoutWith, helem]
  | @field path before after f e hbefore _ ih =>
    -- the fields before resolve on their own, and no name on the path can stop them here
    have hfields : Shape.layoutFields (table.follow path) (before ++ f :: after) =
        .error (.inField f.name f.type e) :=
      Shape.layoutFields_error
        (fun g hg => (hpath.field (by simp [hg])).exists_layoutWith (hbefore g hg))
        (ih (hpath.field (by simp)))
    simp only [Shape.layoutWith, hfields]

theorem not_resolves (h : table.FirstFailure path shape e) (hpath : table.LeadsTo path shape) :
    ¬ table.Resolves shape := by
  intro hr
  obtain ⟨layout, hl⟩ := hpath.exists_layoutWith hr
  rw [h.layoutWith_eq hpath] at hl
  cases hl

end FirstFailure

/-- A shape without a layout fails with its first failure. -/
theorem layout_eq_error_iff {shape : Shape} {e : ResolveError} :
    table.layout shape = .error e ↔ table.FirstFailure [] shape e :=
  ⟨firstFailure_of_layoutWith fun _ _ => firstFailure_of_follow,
    fun h => h.layoutWith_eq (.nil shape)⟩

end AliasTable

/-! What stands behind a failure may be exchanged: the way to the failure stays the same. -/

/-- One step of the way from a list of parameters to a name. -/
inductive ResolveError.Step where
  | pointee
  | element
  | field (name : String)
  | argument (index : Nat) (name : String)
deriving DecidableEq, Repr

/-- The way that an error spells, without the shapes that it passes. -/
def ResolveError.way : ResolveError → List Step
  | .unresolved _ | .recursiveAlias _ => []
  | .inPointee _ source => .pointee :: source.way
  | .inElement _ source => .element :: source.way
  | .inField field _ source => .field field :: source.way
  | .inArgument index name _ source => .argument index name :: source.way

namespace AliasTable

variable {table other : AliasTable}

/-- The second shape is the first up to what stands, in a record, behind a field that does not
resolve. -/
inductive SameUpToFailure (table : AliasTable) : Shape → Shape → Prop where
  | refl (shape : Shape) : SameUpToFailure table shape shape
  | pointee {pointee changed : Shape} (h : SameUpToFailure table pointee changed) :
      SameUpToFailure table (.optional pointee) (.optional changed)
  | element {elem changed : Shape} {extent : Extent} (h : SameUpToFailure table elem changed) :
      SameUpToFailure table (.sequence elem extent) (.sequence changed extent)
  | field {before after others : List (Field Shape)} {name : String} {type changed : Shape}
      (hbefore : ∀ g ∈ before, table.Resolves g.type) (hr : ¬ table.Resolves type)
      (h : SameUpToFailure table type changed) :
      SameUpToFailure table (.record (before ++ ⟨name, type⟩ :: after))
        (.record (before ++ ⟨name, changed⟩ :: others))

/-- The same names have entries in both tables, and those of the second are those of the first up
to their failures. -/
def SameEntries (table other : AliasTable) : Prop :=
  ∀ name, Option.Rel table.SameUpToFailure (table.find? name) (other.find? name)

theorem SameEntries.find_none {name : String} (h : table.SameEntries other)
    (hf : table.find? name = none) : other.find? name = none := by
  have hentry := h name
  rw [hf] at hentry
  cases hg : other.find? name with
  | none => rfl
  | some shape => rw [hg] at hentry; cases hentry

theorem SameEntries.find_some {name : String} {shape : Shape} (h : table.SameEntries other)
    (hf : table.find? name = some shape) :
    ∃ changed, other.find? name = some changed ∧ table.SameUpToFailure shape changed := by
  have hentry := h name
  rw [hf] at hentry
  cases hg : other.find? name with
  | none => rw [hg] at hentry; cases hentry
  | some changed =>
    rw [hg] at hentry
    cases hentry with
    | some hsame => exact ⟨changed, rfl, hsame⟩

theorem SameUpToFailure.eq_of_unfolds {shape changed : Shape} {layout : Layout}
    (h : table.SameUpToFailure shape changed) (hu : table.Unfolds shape layout) :
    changed = shape := by
  induction h generalizing layout with
  | refl => rfl
  | pointee _ ih => cases hu with | optional hu => rw [ih hu]
  | element _ ih => cases hu with | sequence hu => rw [ih hu]
  | @field before after others name type _ _ hr _ _ =>
    cases hu with
    | record hnames hfields =>
      obtain ⟨l, hl⟩ := (Field.exists_zip hnames).1 ⟨name, type⟩ (by simp)
      exact absurd (resolves_iff.mpr ⟨_, (hfields _ hl).layout_eq⟩) hr

/-- What resolves has no failure behind which it could be changed. -/
theorem SameEntries.unfolds {shape : Shape} {layout : Layout} (h : table.SameEntries other)
    (hu : table.Unfolds shape layout) : other.Unfolds shape layout := by
  induction hu with
  | scalar hs => exact .scalar hs
  | entry hn hf hu ih =>
    obtain ⟨changed, hg, hsame⟩ := h.find_some hf
    rw [hsame.eq_of_unfolds hu] at hg
    exact .entry hn hg ih
  | optional _ ih => exact .optional ih
  | sequence _ ih => exact .sequence ih
  | record hnames _ ih => exact .record hnames ih

theorem SameEntries.resolves {shape : Shape} (h : table.SameEntries other)
    (hr : table.Resolves shape) : other.Resolves shape := by
  obtain ⟨layout, hl⟩ := resolves_iff.mp hr
  exact resolves_iff.mpr ⟨layout, (h.unfolds (unfolds_of_layout hl)).layout_eq⟩

/-- A list has one first element that lacks a property. -/
private theorem first_unique {α : Type} {P : α → Prop} {before first after second : List α}
    {x y : α} (h : before ++ x :: after = first ++ y :: second) (hbefore : ∀ a ∈ before, P a)
    (hx : ¬ P x) (hfirst : ∀ a ∈ first, P a) (hy : ¬ P y) : before = first ∧ x = y := by
  induction before generalizing first with
  | nil =>
    cases first with
    | nil => exact ⟨rfl, (List.cons.inj h).1⟩
    | cons b first =>
      obtain ⟨rfl, -⟩ := List.cons.inj h
      exact absurd (hfirst _ List.mem_cons_self) hx
  | cons a before ih =>
    cases first with
    | nil =>
      obtain ⟨rfl, -⟩ := List.cons.inj h
      exact absurd (hbefore _ List.mem_cons_self) hy
    | cons b first =>
      obtain ⟨rfl, hrest⟩ := List.cons.inj h
      obtain ⟨rfl, rfl⟩ := ih hrest (fun c hc => hbefore c (List.mem_cons_of_mem _ hc))
        fun c hc => hfirst c (List.mem_cons_of_mem _ hc)
      exact ⟨rfl, rfl⟩

namespace SameUpToFailure

theorem optional_inv {pointee shape : Shape} (h : table.SameUpToFailure (.optional pointee) shape) :
    ∃ changed, shape = .optional changed ∧ table.SameUpToFailure pointee changed := by
  cases h with
  | refl => exact ⟨pointee, rfl, .refl pointee⟩
  | pointee h => exact ⟨_, rfl, h⟩

theorem sequence_inv {elem shape : Shape} {extent : Extent}
    (h : table.SameUpToFailure (.sequence elem extent) shape) :
    ∃ changed, shape = .sequence changed extent ∧ table.SameUpToFailure elem changed := by
  cases h with
  | refl => exact ⟨elem, rfl, .refl elem⟩
  | element h => exact ⟨_, rfl, h⟩

/-- A changed record has the fields before its first failure, and that field as it is up to its
own failure. -/
theorem record_inv {before after : List (Field Shape)} {f : Field Shape} {shape : Shape}
    (h : table.SameUpToFailure (.record (before ++ f :: after)) shape)
    (hbefore : ∀ g ∈ before, table.Resolves g.type) (hr : ¬ table.Resolves f.type) :
    ∃ changed others, shape = .record (before ++ ⟨f.name, changed⟩ :: others) ∧
      table.SameUpToFailure f.type changed := by
  generalize hrecord : Shape.record (before ++ f :: after) = record at h
  cases h with
  | refl => exact ⟨f.type, after, hrecord.symm, .refl f.type⟩
  | pointee | element => cases hrecord
  | field hfirst hother h =>
    obtain ⟨rfl, rfl⟩ := first_unique (P := fun g : Field Shape => table.Resolves g.type)
      (Shape.record.inj hrecord) hbefore hr hfirst hother
    exact ⟨_, _, rfl, h⟩

end SameUpToFailure

/-- A first failure is met on the same way, and with the same cause, in a shape and a table that
differ only behind failures. -/
theorem FirstFailure.changed {path : List String} {shape changed : Shape} {e : ResolveError}
    (h : table.FirstFailure path shape e) (hpath : table.LeadsTo path shape)
    (htable : table.SameEntries other) (hs : table.SameUpToFailure shape changed) :
    ∃ e', other.FirstFailure path changed e' ∧ e'.way = e.way ∧ e'.rootCause = e.rootCause := by
  induction h generalizing changed with
  | unknown hn hp hf =>
    cases hs
    exact ⟨_, .unknown hn hp (htable.find_none hf), rfl, rfl⟩
  | visited hn hp =>
    cases hs
    exact ⟨_, .visited hn hp, rfl, rfl⟩
  | entry hn hp hf _ ih =>
    cases hs
    obtain ⟨found, hg, hsame⟩ := htable.find_some hf
    obtain ⟨e', he', hway⟩ := ih (hpath.entry hn hf) hsame
    exact ⟨e', .entry hn hp hg he', hway⟩
  | pointee _ ih =>
    obtain ⟨inner, rfl, hinner⟩ := hs.optional_inv
    obtain ⟨e', he', hway, hcause⟩ := ih hpath hinner
    exact ⟨_, .pointee he', by simp only [ResolveError.way, hway], hcause⟩
  | element _ ih =>
    obtain ⟨inner, rfl, hinner⟩ := hs.sequence_inv
    obtain ⟨e', he', hway, hcause⟩ := ih hpath hinner
    exact ⟨_, .element he', by simp only [ResolveError.way, hway], hcause⟩
  | @field path before after f e hbefore hf ih =>
    have hfield : table.LeadsTo path f.type := hpath.field (by simp)
    obtain ⟨type, others, rfl, hinner⟩ := hs.record_inv hbefore (hf.not_resolves hfield)
    obtain ⟨e', he', hway, hcause⟩ := ih hfield hinner
    refine ⟨_, .field (f := ⟨f.name, type⟩) (fun g hg => htable.resolves (hbefore g hg)) he', ?_,
      hcause⟩
    simp only [ResolveError.way, hway]

end AliasTable

/-! All failures of a list of parameters, in the order in which they are written. -/

namespace Shape

mutual

/-- The failures in a shape, given those of the names in it: depth first, and field by field. -/
def failuresWith (leaf : String → List ResolveError) : Shape → List ResolveError
  | .named name => leaf name
  | .optional pointee => (failuresWith leaf pointee).map (.inPointee pointee)
  | .sequence elem _ => (failuresWith leaf elem).map (.inElement elem)
  | .record fields => failuresOfFields leaf fields

def failuresOfFields (leaf : String → List ResolveError) : List (Field Shape) → List ResolveError
  | [] => []
  | ⟨name, type⟩ :: fields =>
    (failuresWith leaf type).map (.inField name type) ++ failuresOfFields leaf fields

end

end Shape

namespace AliasTable

/-- The failures below a name, where the names on the path are being expanded. -/
def failuresBelow (table : AliasTable) (path : List String) (name : String) : List ResolveError :=
  match Scalar.ofName? name with
  | some _ => []
  | none =>
    if name ∈ path then [.recursiveAlias (cycle path name)]
    else
      match _known : table.find? name with
      | none => [.unresolved name]
      | some shape => shape.failuresWith fun inner => table.failuresBelow (name :: path) inner
termination_by table.unvisited path
decreasing_by exact unvisited_cons_lt (mem_keys_of_find? _known) (by assumption)

/-- The failures in a shape. -/
def failures (table : AliasTable) (shape : Shape) : List ResolveError :=
  shape.failuresWith (table.failuresBelow [])

/-- The failures of parameters from position `index` on. -/
def failuresOfParams (table : AliasTable) : Nat → List Param → List ResolveError
  | _, [] => []
  | index, param :: params =>
    (table.failures param.shape).map (.inArgument index param.name param.shape) ++
      table.failuresOfParams (index + 1) params

end AliasTable

/-- The error with which a computation ended. -/
def ResolveError.ofResult? {α : Type} : Except ResolveError α → Option ResolveError
  | .ok _ => none
  | .error e => some e

open ResolveError (ofResult?)

theorem Shape.ofResult?_layoutWith {leaf : String → Except ResolveError Layout}
    {all : String → List ResolveError} (hleaf : ∀ name, ofResult? (leaf name) = (all name).head?)
    (shape : Shape) :
    ofResult? (shape.layoutWith leaf) = (shape.failuresWith all).head? := by
  induction shape using Shape.induction with
  | named name => exact hleaf name
  | optional pointee ih =>
    rw [failuresWith, List.head?_map, ← ih, layoutWith]
    cases pointee.layoutWith leaf <;> rfl
  | sequence elem extent ih =>
    rw [failuresWith, List.head?_map, ← ih, layoutWith]
    cases elem.layoutWith leaf <;> rfl
  | record fields ih =>
    have hfields : ofResult? (layoutFields leaf fields) = (failuresOfFields all fields).head? := by
      induction fields with
      | nil => rfl
      | cons f fields ihFields =>
        obtain ⟨name, type⟩ := f
        have hfirst := ih ⟨name, type⟩ (by simp)
        rw [failuresOfFields, List.head?_append, List.head?_map, ← hfirst,
          ← ihFields fun f hf => ih f (by simp [hf]), layoutFields]
        cases type.layoutWith leaf with
        | error e => rfl
        | ok layout => cases layoutFields leaf fields <;> rfl
    rw [failuresWith, ← hfields, layoutWith]
    cases layoutFields leaf fields <;> rfl

namespace AliasTable

variable {table : AliasTable}

theorem ofResult?_follow (path : List String) (name : String) :
    ofResult? (table.follow path name) = (table.failuresBelow path name).head? := by
  induction path, name using table.followInduction with
  | scalar path name type hs => rw [follow_scalar hs, failuresBelow, hs]; rfl
  | visited path name hn hp =>
    rw [follow_visited hn hp, failuresBelow, hn]
    simp only [hp, if_true]
    rfl
  | unknown path name hn hp hf =>
    rw [follow_unknown hn hp hf, failuresBelow, hn]
    simp only [hp, if_false]
    split
    · rfl
    · next hg => rw [hf] at hg; cases hg
  | entry path name shape hn hp hf ih =>
    rw [follow_entry hn hp hf, failuresBelow, hn]
    simp only [hp, if_false]
    split
    · next hg => rw [hf] at hg; cases hg
    · next found hg =>
      rw [hf] at hg
      cases hg
      rw [← Shape.ofResult?_layoutWith ih shape]
      cases shape.layoutWith (table.follow (name :: path)) <;> rfl

/-- What is reported is the first of all failures. -/
theorem ofResult?_layoutParams (index : Nat) (params : List Param) :
    ofResult? (table.layoutParams index params) = (table.failuresOfParams index params).head? := by
  induction params generalizing index with
  | nil => rfl
  | cons param params ih =>
    have hfirst : ofResult? (table.layout param.shape) = (table.failures param.shape).head? :=
      Shape.ofResult?_layoutWith (ofResult?_follow []) param.shape
    rw [failuresOfParams, List.head?_append, List.head?_map, ← hfirst, ← ih, layoutParams]
    cases table.layout param.shape with
    | error e => rfl
    | ok layout => cases table.layoutParams (index + 1) params <;> rfl

theorem resolveArguments_eq_error_iff {options : Options} {params : List Param}
    {e : ResolveError} :
    table.resolveArguments options params = .error e ↔ table.layoutParams 0 params = .error e := by
  unfold resolveArguments
  cases table.layoutParams 0 params <;> simp [Except.map]

/-- A list of parameters that does not resolve fails with the first of all its failures. The
error names one parameter, before which all others resolve, and spells the way from its shape to a
name that cannot be followed. What stands behind the failure, be it in the list, in the shape or
in an entry of the table, changes neither the way nor the cause. -/
theorem resolveArguments_firstFailure {options : Options} {params : List Param} {e : ResolveError}
    (h : table.resolveArguments options params = .error e) :
    ∃ before param after cause, params = before ++ param :: after ∧
      e = .inArgument before.length param.name param.shape cause ∧
      (∀ p ∈ before, table.Resolves p.shape) ∧ table.FirstFailure [] param.shape cause ∧
      (table.failuresOfParams 0 params).head? = some e ∧
      (∀ others, table.resolveArguments options (before ++ param :: others) = .error e) ∧
      ∀ (other : AliasTable) (shape : Shape) (others : List Param), table.SameEntries other →
        table.SameUpToFailure param.shape shape →
        ∃ changed, other.resolveArguments options (before ++ ⟨param.name, shape⟩ :: others) =
            .error (.inArgument before.length param.name shape changed) ∧
          changed.way = cause.way ∧ changed.rootCause = cause.rootCause := by
  rw [resolveArguments_eq_error_iff] at h
  have hhead : (table.failuresOfParams 0 params).head? = some e := by
    rw [← ofResult?_layoutParams, h]
    rfl
  obtain ⟨before, param, after, cause, rfl, hbefore, hcause, rfl⟩ := exists_of_layoutParams_error h
  rw [Nat.zero_add] at hhead ⊢
  have hfirst := layout_eq_error_iff.mp hcause
  refine ⟨before, param, after, cause, rfl, rfl, hbefore, hfirst, hhead, ?_, ?_⟩
  · intro others
    rw [resolveArguments_eq_error_iff, layoutParams_error param hbefore hcause, Nat.zero_add]
  · intro other shape others htable hsame
    obtain ⟨changed, hchanged, hway, hroot⟩ := hfirst.changed (.nil _) htable hsame
    refine ⟨changed, ?_, hway, hroot⟩
    rw [resolveArguments_eq_error_iff, layoutParams_error ⟨param.name, shape⟩
      (fun p hp => htable.resolves (hbefore p hp)) (layout_eq_error_iff.mpr hchanged),
      Nat.zero_add]

/-- Orders hold items, and an item may lie in another order: a cycle, before a field of a type
without an entry. -/
def orders : AliasTable :=
  ⟨[("Order", .record [⟨"Id", .named "int"⟩, ⟨"Items", .sequence (.named "Item") .dynamic⟩,
      ⟨"Note", .named "Note"⟩]),
    ("Item", .record [⟨"Title", .named "string"⟩, ⟨"Parent", .optional (.named "Order")⟩])],
    by decide⟩

def placeOrder : List Param :=
  [⟨"count", .named "int"⟩, ⟨"order", .optional (.named "Order")⟩, ⟨"note", .named "Note"⟩]

/-- From an order to the cycle through its items. -/
def orderCause : ResolveError :=
  .inPointee (.named "Order") (.inField "Items" (.sequence (.named "Item") .dynamic)
    (.inElement (.named "Item") (.inField "Parent" (.optional (.named "Order"))
      (.inPointee (.named "Order") (.recursiveAlias ["Order", "Item", "Order"])))))

theorem resolveArguments_firstFailure_orders :
    let e := ResolveError.inArgument 1 "order" (.optional (.named "Order")) orderCause
    orders.resolveArguments {} placeOrder = .error e ∧ orders.Resolves (.named "int") ∧
      orders.FirstFailure [] (.optional (.named "Order")) orderCause ∧
      (orders.failuresOfParams 0 placeOrder).head? = some e ∧
      ∀ others, orders.resolveArguments {}
        (⟨"count", .named "int"⟩ :: ⟨"order", .optional (.named "Order")⟩ :: others) =
          .error e := by
  intro e
  have herror : orders.resolveArguments {} placeOrder = .error e := by cbv
  obtain ⟨before, param, after, cause, hsplit, he, hbefore, hfirst, hhead, hothers, -⟩ :=
    resolveArguments_firstFailure herror
  obtain ⟨hlength, -, -, rfl⟩ := ResolveError.inArgument.inj he
  obtain ⟨p, rfl⟩ := List.length_eq_one_iff.mp hlength.symm
  obtain ⟨rfl, hrest⟩ := List.cons.inj hsplit
  obtain ⟨rfl, -⟩ := List.cons.inj hrest
  exact ⟨herror, hbefore _ List.mem_cons_self, hfirst, hhead, hothers⟩

end AliasTable

end Unmarshal
