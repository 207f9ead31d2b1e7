import Unmarshal.Proofs.FirstFailure
import Unmarshal.Proofs.Freshness

/-!
# Entries that matter

Names are followed through the entries of the aliases that a shape reaches, and no other entry is
looked at: scalars come before the table at every level, and the path of an expansion holds names
on the way to where it is. So two tables that agree on what is reached resolve alike, and an entry
that is not reached may be added, changed, left dangling or closed into a cycle.
-/
namespace Unmarshal

namespace Shape

private theorem layoutFields_congr {leaf other : String → Except ResolveError Layout}
    {fields : List (Field Shape)}
    (h : ∀ f ∈ fields, f.type.layoutWith leaf = f.type.layoutWith other) :
    layoutFields leaf fields = layoutFields other fields := by
  induction fields with
  | nil => rfl
  | cons f fields ih =>
    obtain ⟨name, type⟩ := f
    obtain ⟨hfirst, hrest⟩ := List.forall_mem_cons.mp h
    simp only [layoutFields, hfirst, ih hrest]

/-- Only the names in the shape are asked for. -/
theorem layoutWith_congr {leaf other : String → Except ResolveError Layout} {shape : Shape}
    (h : ∀ name ∈ shape.names, leaf name = other name) :
    shape.layoutWith leaf = shape.layoutWith other := by
  induction shape using Shape.induction with
  | named name => exact h name (by simp [names])
  | optional pointee ih => simp only [layoutWith, ih h]
  | sequence elem extent ih => simp only [layoutWith, ih h]
  | record fields ih =>
    have hfields : layoutFields leaf fields = layoutFields other fields := by
      apply layoutFields_congr
      intro f hf
      exact ih f hf fun name hname => h name (mem_namesOfFields.mpr ⟨f, hf, hname⟩)
    simp only [layoutWith, hfields]

end Shape

namespace AliasTable

open Relation

variable {table other : AliasTable} {shape : Shape} {name : String}

/-! ## Reach -/

/-- What a shape reaches is an alias. -/
theorem Reaches.not_scalar (h : table.Reaches shape name) : Scalar.ofName? name = none := by
  obtain ⟨first, hfirst, hreach⟩ := h
  cases hreach with
  | refl => exact (Shape.mem_aliases.mp hfirst).2
  | tail _ hlast =>
    obtain ⟨entry, -, hname⟩ := hlast
    exact (Shape.mem_aliases.mp hname).2

/-- A set of names that holds the aliases of a shape, and with a name the aliases of its entry,
holds all that the shape reaches. -/
theorem Reaches.mem_of_closed {names : List String} (h : table.Reaches shape name)
    (hshape : ∀ first ∈ shape.aliases, first ∈ names)
    (hnames : ∀ first ∈ names, ∀ entry ∈ table.find? first, ∀ second ∈ entry.aliases,
      second ∈ names) : name ∈ names := by
  obtain ⟨first, hfirst, hreach⟩ := h
  induction hreach with
  | refl => exact hshape first hfirst
  | tail _ hlast ih =>
    obtain ⟨entry, hfind, hsecond⟩ := hlast
    exact hnames _ ih entry hfind _ hsecond

/-- The other table says the same of every alias that the shape reaches: the same entry, or in both
none. -/
def AgreesFor (table other : AliasTable) (shape : Shape) : Prop :=
  ∀ name, table.Reaches shape name → other.find? name = table.find? name

/-- Every entry of the table is one of the other table. -/
def ExtendedBy (table other : AliasTable) : Prop :=
  ∀ name shape, table.find? name = some shape → other.find? name = some shape

/-- Tables that agree on what a shape reaches in one of them agree on the reach. -/
theorem AgreesFor.reaches_iff (h : table.AgreesFor other shape) :
    other.Reaches shape name ↔ table.Reaches shape name := by
  constructor
  · rintro ⟨first, hfirst, hreach⟩
    induction hreach with
    | refl => exact ⟨first, hfirst, .refl⟩
    | @tail second third _ hlast ih =>
      obtain ⟨entry, hfind, hthird⟩ := hlast
      rw [h second ih] at hfind
      obtain ⟨start, hstart, hway⟩ := ih
      exact ⟨start, hstart, .tail hway ⟨entry, hfind, hthird⟩⟩
  · rintro ⟨first, hfirst, hreach⟩
    refine ⟨first, hfirst, ?_⟩
    induction hreach with
    | refl => exact .refl
    | @tail second third hway hlast ih =>
      obtain ⟨entry, hfind, hthird⟩ := hlast
      exact .tail ih ⟨entry, by rw [h second ⟨first, hfirst, hway⟩, hfind], hthird⟩

theorem agreesFor_insert (entry : Shape) (h : ¬ table.Reaches shape name) :
    table.AgreesFor (table.insert name entry) shape := by
  intro reached hreached
  have hne : reached ≠ name := by
    rintro rfl
    exact h hreached
  rw [find?_insert, if_neg hne]

/-- A shape that resolves reaches entries only, and they stay in an extended table. -/
theorem ExtendedBy.agreesFor (h : table.ExtendedBy other) (hr : table.Resolves shape) :
    table.AgreesFor other shape := by
  have hreach := wellDefined_aliases_iff.mp ((layout_ok_iff table shape).mp (resolves_iff.mp hr))
  intro name hname
  obtain ⟨entry, hfind⟩ := Option.isSome_iff_exists.mp (hreach name hname).1
  rw [hfind, h name entry hfind]

/-! ## Following names -/

/-- A name is followed alike on every path by tables that agree on what it reaches. -/
theorem follow_eq_of_agree {path : List String}
    (h : Scalar.ofName? name = none →
      ∀ reached, ReflTransGen table.Mentions name reached →
        other.find? reached = table.find? reached) :
    other.follow path name = table.follow path name := by
  induction path, name using table.followInduction with
  | scalar path name type hs => rw [follow_scalar hs, follow_scalar hs]
  | visited path name hn hp => rw [follow_visited hn hp, follow_visited hn hp]
  | unknown path name hn hp hf =>
    have hother : other.find? name = none := by rw [h hn name .refl, hf]
    rw [follow_unknown hn hp hf, follow_unknown hn hp hother]
  | entry path name shape hn hp hf ih =>
    have hother : other.find? name = some shape := by rw [h hn name .refl, hf]
    rw [follow_entry hn hp hf, follow_entry hn hp hother]
    have hinner : ∀ inner ∈ shape.names,
        other.follow (name :: path) inner = table.follow (name :: path) inner := by
      intro inner hmem
      apply ih
      intro hs reached hreach
      exact h hn reached (.head ⟨shape, hf, Shape.mem_aliases.mpr ⟨hmem, hs⟩⟩ hreach)
    rw [Shape.layoutWith_congr hinner]

theorem AgreesFor.layout_eq (h : table.AgreesFor other shape) :
    other.layout shape = table.layout shape := by
  apply Shape.layoutWith_congr
  intro name hname
  apply follow_eq_of_agree
  intro hs reached hreach
  exact h reached ⟨name, Shape.mem_aliases.mpr ⟨hname, hs⟩, hreach⟩

theorem layoutParams_eq_of_agree {params : List Param}
    (h : ∀ param ∈ params, table.AgreesFor other param.shape) (index : Nat) :
    other.layoutParams index params = table.layoutParams index params := by
  induction params generalizing index with
  | nil => rfl
  | cons param params ih =>
    obtain ⟨hparam, hparams⟩ := List.forall_mem_cons.mp h
    simp only [layoutParams, hparam.layout_eq, ih hparams]

theorem resolves_of_layoutParams {params : List Param} {index : Nat}
    {layouts : List (Field Layout)} (h : table.layoutParams index params = .ok layouts) :
    ∀ param ∈ params, table.Resolves param.shape := by
  intro param hparam
  obtain ⟨hlength, hunfolds⟩ := layoutParams_ok h
  obtain ⟨i, hi, rfl⟩ := List.mem_iff_getElem.mp hparam
  have hlayout := List.getElem?_eq_getElem (hlength.symm ▸ hi)
  obtain ⟨-, hunfold⟩ := hunfolds i _ _ hlayout (List.getElem?_eq_getElem hi)
  exact resolves_iff.mpr ⟨_, hunfold.layout_eq⟩

/-- Two tables that agree on the aliases a shape reaches resolve it alike, errors included, and so
do they bind a function whose parameters reach only such aliases, wherever it stands among others.
An entry that is not reached may be added or changed: a scalar never is, whatever its entry says.
What resolves with a table resolves the same with every extension of it. -/
theorem resolution_depends_on_reach (table : AliasTable) :
    (∀ (other : AliasTable) (shape : Shape), table.AgreesFor other shape →
      (∀ name, other.Reaches shape name ↔ table.Reaches shape name) ∧
        ∀ (options : Options) (base : String) (source : Expr) (target : Option Expr),
          other.resolve options base shape source target =
            table.resolve options base shape source target) ∧
    (∀ (other : AliasTable) (options : Options) (signatures : List Signature) (i : Nat)
        (signature : Signature), signatures[i]? = some signature →
      (∀ param ∈ signature.params, table.AgreesFor other param.shape) →
      (other.bindAll options signatures)[i]? = (table.bindAll options signatures)[i]?) ∧
    (∀ (name : String) (entry shape : Shape),
      (Scalar.ofName? name).isSome ∨ ¬ table.Reaches shape name →
      table.AgreesFor (table.insert name entry) shape) ∧
    ∀ (other : AliasTable), table.ExtendedBy other →
      (∀ (options : Options) (base : String) (shape : Shape) (source : Expr)
          (target : Option Expr) (resolution : Resolution),
        table.resolve options base shape source target = .ok resolution →
        other.resolve options base shape source target = .ok resolution) ∧
      ∀ (options : Options) (signature : Signature) (binding : Binding),
        table.bind options signature = .ok binding → other.bind options signature = .ok binding := by
  have hresolve (other : AliasTable) (shape : Shape) (h : table.AgreesFor other shape)
      (options : Options) (base : String) (source : Expr) (target : Option Expr) :
      other.resolve options base shape source target =
        table.resolve options base shape source target := by
    rw [resolve, resolve, h.layout_eq]
  have hbind (other : AliasTable) (options : Options) (signature : Signature)
      (h : ∀ param ∈ signature.params, table.AgreesFor other param.shape) :
      other.bind options signature = table.bind options signature := by
    rw [bind, bind, layoutParams_eq_of_agree h]
  refine ⟨fun other shape h => ⟨fun name => h.reaches_iff, hresolve other shape h⟩, ?_, ?_, ?_⟩
  · intro other options signatures i signature hi h
    simp only [bindAll, List.getElem?_map, hi, Option.map_some, hbind other options signature h]
  · rintro name entry shape (hscalar | hreach)
    · apply agreesFor_insert
      intro hreach
      rw [hreach.not_scalar] at hscalar
      cases hscalar
    · exact agreesFor_insert entry hreach
  · intro other hextended
    constructor
    · intro options base shape source target resolution h
      have hresolves := resolves_iff.mpr ((resolve_ok_iff ..).mp ⟨resolution, h⟩)
      rw [hresolve other shape (hextended.agreesFor hresolves), h]
    · intro options signature binding h
      obtain ⟨layouts, hlayouts, -⟩ := bind_eq_ok_iff.mp h
      have hparams := resolves_of_layoutParams hlayouts
      rw [hbind other options signature fun param hp => hextended.agreesFor (hparams param hp), h]

/-- Beside the rows an alias that stands for itself, and an entry under the name of a scalar that
leads nowhere. -/
def brokenBesideRows : AliasTable :=
  (rows.insert "int" (.named "Missing")).insert "Loop" (.named "Loop")

theorem resolution_depends_on_reach_rows :
    let signatures := [⟨"spin", [⟨"l", .named "Loop"⟩]⟩, drawRows]
    (∀ param ∈ drawRows.params, rows.AgreesFor brokenBesideRows param.shape) ∧
      (brokenBesideRows.bindAll {} signatures)[1]? = (rows.bindAll {} signatures)[1]? ∧
      rows.AgreesFor (rows.insert "int" (.named "Missing")) (.named "Row") ∧
      rows.ExtendedBy brokenBesideRows ∧
      ∃ binding, rows.bind {} drawRows = .ok binding ∧
        brokenBesideRows.bind {} drawRows = .ok binding := by
  intro signatures
  obtain ⟨-, hbindAll, hinsert, hextends⟩ := resolution_depends_on_reach rows
  have hreach : ∀ param ∈ drawRows.params, ∀ name,
      rows.Reaches param.shape name → name = "Row" := by
    intro param hparam name hname
    have haliases : ∀ param ∈ drawRows.params, ∀ first ∈ param.shape.aliases, first ∈ ["Row"] := by
      decide
    exact List.mem_singleton.mp (hname.mem_of_closed (haliases param hparam) (by decide))
  have hagree : ∀ param ∈ drawRows.params, rows.AgreesFor brokenBesideRows param.shape := by
    intro param hparam name hname
    rw [hreach param hparam name hname]
    rfl
  have hextended : rows.ExtendedBy brokenBesideRows := by
    intro name entry hfind
    have hname : name ∈ ["Row"] := mem_keys_of_find? hfind
    obtain rfl := List.mem_singleton.mp hname
    exact hfind
  obtain ⟨binding, hbinding⟩ : ∃ binding, rows.bind {} drawRows = .ok binding :=
    ⟨_, bind_eq_ok_iff.mpr ⟨drawLayouts, layoutParams_drawRows, rfl⟩⟩
  exact ⟨hagree, hbindAll brokenBesideRows {} signatures 1 drawRows rfl hagree,
    hinsert "int" (.named "Missing") (.named "Row") (.inl rfl), hextended, binding, hbinding,
    (hextends brokenBesideRows hextended).2 {} drawRows binding hbinding⟩

end AliasTable

end Unmarshal
