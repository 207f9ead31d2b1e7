import Mathlib.Data.List.Nodup
import Unmarshal.Proofs.Claiming
import Unmarshal.Proofs.Execution.Underlying
import Unmarshal.Proofs.Renaming

/-!
# Names of locals are cosmetic

Two resolutions of one shape, from one source into one place, differ in the names of their locals
only, whatever the base names and the names in use are. Where no name that is asked for is taken,
they do not differ at all. So a parameter is converted as it is on its own, and the fields of a
record one after the other.
-/
namespace Unmarshal

namespace Names

/-- The names are distinct, and none of them is in use. -/
structure Frees (names : Names) (wanted : List String) : Prop where
  nodup : wanted.Nodup
  fresh : ∀ x ∈ wanted, x ∉ names.used

namespace Frees

variable {names after : Names} {first second : List String}

theorem left (h : names.Frees (first ++ second)) : names.Frees first :=
  ⟨(List.nodup_append.mp h.nodup).1, fun x hx => h.fresh x (List.mem_append_left _ hx)⟩

/-- The names that are wanted later are free after the first ones have been claimed. -/
theorem right (h : names.Frees (first ++ second)) (hclaims : names.Claims after first) :
    after.Frees second := by
  obtain ⟨-, hsecond, hapart⟩ := List.nodup_append.mp h.nodup
  refine ⟨hsecond, ?_⟩
  intro x hx hused
  rcases (hclaims.mem_used x).mp hused with hfirst | hbefore
  · exact hapart x hfirst x hx rfl
  · exact h.fresh x (List.mem_append_right _ hx) hbefore

/-- A name that is free is claimed as it is, and the others stay free. -/
theorem claim {base : String} (h : names.Frees (base :: second)) :
    (names.claim base).1 = base ∧ (names.claim base).2.Frees second := by
  have hbase : (names.claim base).1 = base := claim_eq_self (h.fresh base (by simp))
  have hclaims := Claims.single names base
  rw [hbase] at hclaims
  have happend : names.Frees ([base] ++ second) := h
  exact ⟨hbase, happend.right hclaims⟩

theorem perm (h : names.Frees first) (hp : first.Perm second) : names.Frees second :=
  ⟨hp.nodup h.nodup, fun x hx => h.fresh x (hp.mem_iff.mpr hx)⟩

end Frees

end Names

namespace Layout

variable {options : Options}

private theorem allLocals_fillFields {fields : List (Field Layout)}
    (ih : ∀ f ∈ fields, ∀ base source target (names : Names), names.Frees (f.type.wanted base) →
      Stmt.allLocals (f.type.fill options base source target names).1 = f.type.wanted base)
    {base : String} {source target : Expr} {names : Names}
    (h : names.Frees (wantedOfFields base fields)) :
    Stmt.allLocals (fillFields options base source target fields names).1 =
      wantedOfFields base fields := by
  induction fields generalizing names with
  | nil => rfl
  | cons f fields ihFields =>
    obtain ⟨name, type⟩ := f
    rw [wantedOfFields] at h
    have hfirst := ih ⟨name, type⟩ (by simp) (base ++ name) (source.property name)
      (.field target name) names h.left
    have hclaims := type.fill_claims options (base ++ name) (source.property name)
      (.field target name) names
    rw [hfirst] at hclaims
    rw [fillFields, wantedOfFields, Stmt.allLocals_append, hfirst,
      ihFields (fun f hf => ih f (by simp [hf])) (h.right hclaims)]

/-- Where no name that is asked for is taken, the locals have the names that are asked for. -/
theorem allLocals_fill (layout : Layout) {base : String} {source target : Expr} {names : Names}
    (h : names.Frees (layout.wanted base)) :
    Stmt.allLocals (layout.fill options base source target names).1 = layout.wanted base := by
  induction layout using Layout.induction generalizing base source target names with
  | scalar declared type => rfl
  | optional declared pointee ih =>
    simpa [fill, wanted, Stmt.allLocals, Stmt.locals] using ih h
  | sequence declared elem extent ih =>
    cases extent with
    | fixed length =>
      obtain ⟨hcounter, hrest⟩ := h.claim
      simp [fill, wanted, Stmt.allLocals, Stmt.locals, hcounter, ih hrest]
    | dynamic =>
      obtain ⟨hlength, hcounted⟩ := h.claim
      obtain ⟨hcounter, hrest⟩ := hcounted.claim
      simp [fill, wanted, Stmt.allLocals, Stmt.locals, hlength, hcounter, ih hrest]
  | record declared fields ih =>
    exact allLocals_fillFields (fun f hf base source target names => ih f hf) h

/-- The names that binding a value asks for, in the order in which the locals are declared. -/
def wantedBound (base : String) : Layout → List String
  | .scalar _ _ => []
  | .sequence _ elem .dynamic =>
    (base ++ "Len") :: base :: (base ++ "Idx") :: elem.wanted (base ++ "Elt")
  | layout => base :: layout.wanted base

theorem allLocals_bind (layout : Layout) {base : String} {source : Expr} {names : Names}
    (h : names.Frees (layout.wantedBound base)) :
    Stmt.allLocals (layout.bind options base source names).1.code = layout.wantedBound base := by
  cases layout with
  | scalar declared type => rfl
  | optional | record =>
    obtain ⟨hplace, hrest⟩ := Names.Frees.claim h
    simp [bind, wantedBound, Stmt.allLocals, Stmt.locals, hplace, allLocals_fill _ hrest]
  | sequence declared elem extent =>
    cases extent with
    | fixed length =>
      obtain ⟨hplace, hrest⟩ := Names.Frees.claim h
      simp [bind, wantedBound, Stmt.allLocals, Stmt.locals, hplace, allLocals_fill _ hrest]
    | dynamic =>
      -- the place is claimed before the length, although it is declared after
      obtain ⟨hplace, hplaced⟩ := (h.perm (.swap _ _ _)).claim
      obtain ⟨hlength, hcounted⟩ := hplaced.claim
      obtain ⟨hcounter, hrest⟩ := hcounted.claim
      simp [bind, wantedBound, Stmt.allLocals, Stmt.locals, hplace, hlength, hcounter,
        allLocals_fill _ hrest]

theorem length_allLocals_bind (layout : Layout) (base other : String) (source : Expr)
    (names : Names) : (Stmt.allLocals (layout.bind options base source names).1.code).length =
      (layout.wantedBound other).length := by
  cases layout with
  | scalar declared type => rfl
  | optional | record =>
    simp [bind, wantedBound, Stmt.allLocals, Stmt.locals, length_allLocals_fill _ _ other]
  | sequence declared elem extent =>
    cases extent with
    | fixed length =>
      simp [bind, wantedBound, Stmt.allLocals, Stmt.locals, length_allLocals_fill _ _ other]
    | dynamic =>
      simp [bind, wantedBound, Stmt.allLocals, Stmt.locals,
        length_allLocals_fill _ _ (other ++ "Elt")]

/-- The names that a resolution asks for: to fill a place if there is one, and to bind otherwise. -/
def asked (base : String) : Option Expr → Layout → List String
  | some _, layout => layout.wanted base
  | none, layout => layout.wantedBound base

variable {source : Expr} {target : Option Expr} {names : Names}

theorem length_allLocals_emit (layout : Layout) (base other : String) :
    (Stmt.allLocals (layout.emit options base source target names).code).length =
      (layout.asked other target).length := by
  cases target with
  | some place => exact layout.length_allLocals_fill base other source place names
  | none => exact layout.length_allLocals_bind base other source names

theorem emit_frees (layout : Layout) (base : String) :
    names.Frees (Stmt.allLocals (layout.emit options base source target names).code) := by
  cases target with
  | some place =>
    have hclaims := layout.fill_claims options base source place names
    exact ⟨hclaims.nodup, hclaims.fresh⟩
  | none =>
    have hclaims := layout.bind_claims options base source names
    exact ⟨hclaims.nodup, hclaims.fresh⟩

/-- No local is renamed exactly if all names that are asked for are free. -/
theorem allLocals_emit_iff (layout : Layout) (base : String) :
    Stmt.allLocals (layout.emit options base source target names).code =
      layout.asked base target ↔ names.Frees (layout.asked base target) := by
  constructor
  · intro h
    exact h ▸ layout.emit_frees base
  · intro h
    cases target with
    | some place => exact layout.allLocals_fill h
    | none => exact layout.allLocals_bind h

theorem emit_rename (options : Options) (σ : String → String)
    (hkind : σ options.kindVar = options.kindVar) (layout : Layout) (base other : String)
    (source : Expr) (target : Option Expr) (names others : Names)
    (h : (Stmt.allLocals (layout.emit options base source target names).code).map σ =
      Stmt.allLocals (layout.emit options other (source.rename σ) (target.map (Expr.rename σ))
        others).code) :
    layout.emit options other (source.rename σ) (target.map (Expr.rename σ)) others =
      (layout.emit options base source target names).rename σ := by
  cases target with
  | some place =>
    have hfill := layout.fill_rename hkind base other source place names others h
    simp only [emit, Option.map_some, Resolution.rename, hfill]
  | none => exact layout.bind_rename hkind base other source names others h

end Layout

/-- Takes the names of one list to those at the same positions of another, and no other name. -/
def Names.pairing (first second : List String) (x : String) : String :=
  ((first.zip second).lookup x).getD x

theorem Names.pairing_of_not_mem {first second : List String} {x : String} (h : x ∉ first) :
    pairing first second x = x := by
  have hlookup : (first.zip second).lookup x = none := by
    rw [List.lookup_eq_none_iff]
    intro p hp
    have hmem : p.1 ∈ first := (List.of_mem_zip hp).1
    simp only [bne_iff_ne, ne_eq]
    rintro rfl
    exact h hmem
  rw [pairing, hlookup, Option.getD_none]

theorem Names.map_pairing {first second : List String} (hnodup : first.Nodup)
    (hlength : first.length = second.length) : first.map (pairing first second) = second := by
  induction first generalizing second with
  | nil => simpa using hlength.symm
  | cons a first ih =>
    cases second with
    | nil => simp at hlength
    | cons b second =>
      obtain ⟨hnew, hnodup⟩ := List.nodup_cons.mp hnodup
      have htail : first.map (pairing (a :: first) (b :: second)) =
          first.map (pairing first second) := by
        apply List.map_congr_left
        intro x hx
        have hne : (x == a) = false := by
          rw [beq_eq_false_iff_ne]
          rintro rfl
          exact hnew hx
        rw [pairing, pairing, List.zip_cons_cons, List.lookup_cons, hne]
      rw [List.map_cons, htail, ih hnodup (by simpa using hlength)]
      simp [pairing]

/-- Between lists of distinct names the pairing is one to one. -/
theorem Names.bijOn_pairing {first second : List String} (hfirst : first.Nodup)
    (hsecond : second.Nodup) (hlength : first.length = second.length) :
    Set.BijOn (pairing first second) {x | x ∈ first} {x | x ∈ second} := by
  have hmap : first.map (pairing first second) = second := map_pairing hfirst hlength
  refine ⟨?_, ?_, ?_⟩
  · intro x hx
    have hmem : pairing first second x ∈ first.map (pairing first second) :=
      List.mem_map_of_mem hx
    rwa [hmap] at hmem
  · have hnodup : (first.map (pairing first second)).Nodup := hmap.symm ▸ hsecond
    exact fun x hx y hy => List.inj_on_of_nodup_map hnodup hx hy
  · intro y hy
    have hmem : y ∈ first.map (pairing first second) := hmap.symm ▸ hy
    exact List.mem_map.mp hmem

/-- The second resolution is the first with its locals replaced by its own, one to one and where
they are declared as well as where they are used. -/
def Resolution.RenamesTo (first second : Resolution) : Prop :=
  ∃ σ : String → String, (∀ x, x ∉ Stmt.allLocals first.code → σ x = x) ∧
    Set.BijOn σ {x | x ∈ Stmt.allLocals first.code} {x | x ∈ Stmt.allLocals second.code} ∧
    second = first.rename σ

/-- Each resolution is the other with its locals replaced. Asked both ways, so that no local is
given a name that the code has another use for. -/
def Resolution.Alike (first second : Resolution) : Prop :=
  first.RenamesTo second ∧ second.RenamesTo first

/-- The names that a resolution refers to besides its locals are in use. -/
structure Names.Covers (options : Options) (source : Expr) (target : Option Expr)
    (names : Names) : Prop extends names.Reserves options where
  runtime : options.runtime ∈ names.used
  source : ∀ x ∈ source.idents, x ∈ names.used
  target : ∀ place ∈ target, ∀ x ∈ place.idents, x ∈ names.used

namespace Layout

variable {options : Options} {source : Expr} {target : Option Expr} {names others : Names}

theorem emit_renamesTo (layout : Layout) (base other : String)
    (hnames : names.Covers options source target) :
    (layout.emit options base source target names).RenamesTo
      (layout.emit options other source target others) := by
  let first := Stmt.allLocals (layout.emit options base source target names).code
  let second := Stmt.allLocals (layout.emit options other source target others).code
  let σ := Names.pairing first second
  have hfirst : names.Frees first := layout.emit_frees base
  have hsecond : others.Frees second := layout.emit_frees other
  have hlength : first.length = second.length := by
    rw [length_allLocals_emit layout base "", length_allLocals_emit layout other ""]
  -- locals are fresh, so the names that the code shares with its surroundings stay
  have hfixed : ∀ x ∈ names.used, σ x = x := fun x hx =>
    Names.pairing_of_not_mem fun hmem => hfirst.fresh x hmem hx
  have hsource : source.rename σ = source :=
    Expr.rename_eq_self fun x hx => hfixed x (hnames.source x hx)
  have htarget : target.map (Expr.rename σ) = target := by
    cases target with
    | none => rfl
    | some place =>
      exact congrArg some (Expr.rename_eq_self fun x hx => hfixed x (hnames.target place rfl x hx))
  have hrename := emit_rename options σ (hfixed _ hnames.kindVar) layout base other source target
    names others
  rw [hsource, htarget] at hrename
  exact ⟨σ, fun x hx => Names.pairing_of_not_mem hx,
    Names.bijOn_pairing hfirst.nodup hsecond.nodup hlength,
    hrename (Names.map_pairing hfirst.nodup hlength)⟩

theorem emit_alike (layout : Layout) (base other : String)
    (hnames : names.Covers options source target) (hothers : others.Covers options source target) :
    (layout.emit options base source target names).Alike
      (layout.emit options other source target others) :=
  ⟨layout.emit_renamesTo base other hnames, layout.emit_renamesTo other base hothers⟩

/-- Where locals have the same names, nothing is left that could differ. -/
theorem emit_eq {layout : Layout} {base other : String}
    (h : Stmt.allLocals (layout.emit options base source target names).code =
      Stmt.allLocals (layout.emit options other source target others).code) :
    layout.emit options base source target names =
      layout.emit options other source target others := by
  have htarget : target.map (Expr.rename id) = target := by cases target <;> simp
  have hrename := emit_rename options id rfl layout base other source target names others
  rw [Expr.rename_id, htarget, List.map_id] at hrename
  rw [hrename h, Resolution.rename, Stmt.renameAll_id, Expr.rename_id]

end Layout

/-- Two resolutions end alike: with the same error, or up to the names of their locals. -/
def SameUpToLocals :
    Except ResolveError Resolution → Except ResolveError Resolution → Prop
  | .ok first, .ok second => first.Alike second
  | .error first, .error second => first = second
  | _, _ => False

namespace AliasTable

/-- Resolution from given names in use. -/
def resolveFrom (table : AliasTable) (names : Names) (options : Options) (base : String)
    (shape : Shape) (source : Expr) (target : Option Expr) : Except ResolveError Resolution :=
  match table.layout shape with
  | .ok layout => .ok (layout.emit options base source target names)
  | .error e => .error e

/-- The names that a resolution asks for, in the order in which the locals are declared. -/
def asked (table : AliasTable) (base : String) (shape : Shape) (target : Option Expr) :
    List String :=
  match table.layout shape with
  | .ok layout => layout.asked base target
  | .error _ => []

variable {table : AliasTable} {options : Options} {shape : Shape} {source : Expr}
  {target : Option Expr} {names others : Names}

theorem resolve_eq_resolveFrom (base : String) :
    table.resolve options base shape source target =
      table.resolveFrom (.reserved options) options base shape source target := rfl

theorem resolveFrom_sameUpToLocals (base other : String)
    (hnames : names.Covers options source target) (hothers : others.Covers options source target) :
    SameUpToLocals (table.resolveFrom names options base shape source target)
      (table.resolveFrom others options other shape source target) := by
  unfold resolveFrom
  cases table.layout shape with
  | error e => rfl
  | ok layout => exact layout.emit_alike base other hnames hothers

theorem resolveFrom_eq {base : String} (hnames : names.Frees (table.asked base shape target))
    (hothers : others.Frees (table.asked base shape target)) :
    table.resolveFrom names options base shape source target =
      table.resolveFrom others options base shape source target := by
  unfold asked at hnames hothers
  unfold resolveFrom
  cases hl : table.layout shape with
  | error e => rfl
  | ok layout =>
    rw [hl] at hnames hothers
    exact congrArg Except.ok (Layout.emit_eq
      (((layout.allLocals_emit_iff base).mpr hnames).trans
        ((layout.allLocals_emit_iff base).mpr hothers).symm))

end AliasTable

/-! Fields and parameters are resolved one after the other, each from the names that are in use
after the ones before it. -/

namespace Names

variable {options : Options} {source : Expr} {target : Option Expr} {names after : Names}

theorem Covers.later {claimed : List String} (h : names.Covers options source target)
    (hclaims : names.Claims after claimed) : after.Covers options source target where
  toReserves := h.toReserves.later hclaims
  runtime := hclaims.mem_of_mem h.runtime
  source x hx := hclaims.mem_of_mem (h.source x hx)
  target place hplace x hx := hclaims.mem_of_mem (h.target place hplace x hx)

/-- The names that a record is resolved from cover its fields as well. -/
theorem Covers.field {place : Expr} (h : names.Covers options source (some place))
    (name : String) :
    names.Covers options (source.property name) (some (.field place name)) where
  toReserves := h.toReserves
  runtime := h.runtime
  source := by simpa using h.source
  target := by
    intro field hfield x hx
    obtain rfl : Expr.field place name = field := by simpa using hfield
    exact h.target place rfl x hx

/-- A local that is claimed for a place is a name in use. -/
theorem Covers.claim (h : names.Covers options source target) (base : String) :
    (names.claim base).2.Covers options source (some (.ident (names.claim base).1)) where
  toReserves := h.toReserves.claim base
  runtime := names.mem_used_claim base h.runtime
  source x hx := names.mem_used_claim base (h.source x hx)
  target := by
    intro place hplace x hx
    obtain rfl : Expr.ident (names.claim base).1 = place := by simpa using hplace
    obtain rfl : x = (names.claim base).1 := by simpa [Expr.idents] using hx
    simp [used_claim]

/-- The reserved names cover the conversion of an argument to a new value. -/
theorem Covers.reserved (options : Options) (i : Nat) :
    (Names.reserved options).Covers options (.index (.ident options.args) (.int i)) none := by
  refine ⟨⟨?_, ?_⟩, ?_, ?_, ?_⟩ <;> simp [Names.reserved, Expr.idents]

end Names

/-- The arguments for a list of layouts are resolutions of the single layouts, joined. Each is made
from the names in use at first and the locals of the ones before it. -/
theorem Arguments.exists_parts (options : Options) (index : Nat) (layouts : List (Field Layout))
    (names : Names) :
    ∃ parts : List Resolution,
      (emit options index layouts names).code = parts.flatMap Resolution.code ∧
      (emit options index layouts names).values = parts.map Resolution.value ∧
      parts.length = layouts.length ∧
      ∀ (i : Nat) f part, layouts[i]? = some f → parts[i]? = some part →
        ∃ later, names.Claims later (Stmt.allLocals ((parts.take i).flatMap Resolution.code)) ∧
          part = f.type.emit options f.name
            (.index (.ident options.args) (.int (index + i))) none later := by
  induction layouts generalizing index names with
  | nil => exact ⟨[], rfl, rfl, rfl, by simp⟩
  | cons f layouts ih =>
    obtain ⟨base, layout⟩ := f
    let first := layout.bind options base (.index (.ident options.args) (.int index)) names
    have hclaims : names.Claims first.2 (Stmt.allLocals first.1.code) :=
      layout.bind_claims options base _ names
    obtain ⟨parts, hcode, hvalues, hlength, hparts⟩ := ih (index + 1) first.2
    refine ⟨first.1 :: parts, ?_, ?_, ?_, ?_⟩
    · rw [emit, List.flatMap_cons, ← hcode]
    · rw [emit, List.map_cons, ← hvalues]
    · rw [List.length_cons, List.length_cons, hlength]
    · intro i f part hf hpart
      cases i with
      | zero =>
        obtain rfl : ⟨base, layout⟩ = f := by simpa using hf
        obtain rfl : first.1 = part := by simpa using hpart
        exact ⟨names, .refl names, rfl⟩
      | succ i =>
        obtain ⟨later, hlater, rfl⟩ := hparts i f part hf hpart
        rw [show index + (i + 1) = index + 1 + i by omega, List.take_succ_cons,
          List.flatMap_cons, Stmt.allLocals_append]
        exact ⟨later, hclaims.trans hlater, rfl⟩

/-- The same of the fields of a record. -/
theorem Layout.exists_parts (options : Options) (fields : List (Field Layout)) (base : String)
    (source target : Expr) (names : Names) :
    ∃ parts : List Resolution,
      (fillFields options base source target fields names).1 = parts.flatMap Resolution.code ∧
      parts.length = fields.length ∧
      ∀ (i : Nat) f part, fields[i]? = some f → parts[i]? = some part →
        ∃ later, names.Claims later (Stmt.allLocals ((parts.take i).flatMap Resolution.code)) ∧
          part = f.type.emit options (base ++ f.name) (source.property f.name)
            (some (.field target f.name)) later := by
  induction fields generalizing names with
  | nil => exact ⟨[], rfl, rfl, by simp⟩
  | cons f fields ih =>
    obtain ⟨name, type⟩ := f
    let first := type.fill options (base ++ name) (source.property name) (.field target name) names
    have hclaims : names.Claims first.2 (Stmt.allLocals first.1) :=
      type.fill_claims options (base ++ name) (source.property name) (.field target name) names
    obtain ⟨parts, hcode, hlength, hparts⟩ := ih first.2
    refine ⟨⟨first.1, .field target name⟩ :: parts, ?_, ?_, ?_⟩
    · rw [fillFields, List.flatMap_cons, ← hcode]
    · rw [List.length_cons, List.length_cons, hlength]
    · intro i f part hf hpart
      cases i with
      | zero =>
        obtain rfl : ⟨name, type⟩ = f := by simpa using hf
        obtain rfl : ⟨first.1, .field target name⟩ = part := by simpa using hpart
        exact ⟨names, .refl names, rfl⟩
      | succ i =>
        obtain ⟨later, hlater, rfl⟩ := hparts i f part hf hpart
        rw [List.take_succ_cons, List.flatMap_cons, Stmt.allLocals_append]
        exact ⟨later, hclaims.trans hlater, rfl⟩

namespace AliasTable

variable {table : AliasTable} {options : Options}

/-- The arguments of a call are the resolutions of its parameters, joined. -/
theorem exists_parts_of_resolveArguments {params : List Param} {arguments : Arguments}
    (h : table.resolveArguments options params = .ok arguments) :
    ∃ parts : List Resolution, arguments.code = parts.flatMap Resolution.code ∧
      arguments.values = parts.map Resolution.value ∧ parts.length = params.length ∧
      ∀ (i : Nat) param part, params[i]? = some param → parts[i]? = some part →
        ∃ names, (Names.reserved options).Claims names
            (Stmt.allLocals ((parts.take i).flatMap Resolution.code)) ∧
          table.resolveFrom names options (param.localName i) param.shape
            (.index (.ident options.args) (.int i)) none = .ok part := by
  obtain ⟨layouts, hlayouts, rfl⟩ := resolveArguments_eq_ok_iff.mp h
  obtain ⟨hlength, hparams⟩ := layoutParams_ok hlayouts
  obtain ⟨parts, hcode, hvalues, hcount, hparts⟩ :=
    Arguments.exists_parts options 0 layouts (.reserved options)
  refine ⟨parts, hcode, hvalues, hcount.trans hlength, ?_⟩
  intro i param part hparam hpart
  obtain ⟨hi, -⟩ := List.getElem?_eq_some_iff.mp hparam
  have hf := List.getElem?_eq_getElem (hlength ▸ hi)
  obtain ⟨hname, hunfold⟩ := hparams i _ param hf hparam
  obtain ⟨names, hclaims, rfl⟩ := hparts i _ part hf hpart
  rw [Nat.zero_add] at hname ⊢
  refine ⟨names, hclaims, ?_⟩
  rw [resolveFrom, hunfold.layout_eq, ← hname]

/-- The fields of a record are filled by the resolutions of their types, joined. -/
theorem exists_parts_of_fields {layouts : List (Field Layout)} (base : String)
    (source target : Expr) (names : Names)
    (hunfold : ∀ l ∈ layouts, table.Unfolds l.type.declared l.type) :
    ∃ parts : List Resolution,
      (Layout.fillFields options base source target layouts names).1 =
        parts.flatMap Resolution.code ∧
      parts.length = layouts.length ∧
      ∀ (i : Nat) (field : Field Shape) part,
        (layouts.map fun l => (⟨l.name, l.type.declared⟩ : Field Shape))[i]? = some field →
        parts[i]? = some part →
        ∃ later, names.Claims later (Stmt.allLocals ((parts.take i).flatMap Resolution.code)) ∧
          table.resolveFrom later options (base ++ field.name) field.type
            (source.property field.name) (some (.field target field.name)) = .ok part := by
  obtain ⟨parts, hcode, hlength, hparts⟩ :=
    Layout.exists_parts options layouts base source target names
  refine ⟨parts, hcode, hlength, ?_⟩
  intro i field part hfield hpart
  rw [List.getElem?_map, Option.map_eq_some_iff] at hfield
  obtain ⟨l, hl, rfl⟩ := hfield
  obtain ⟨later, hclaims, rfl⟩ := hparts i l part hl hpart
  refine ⟨later, hclaims, ?_⟩
  rw [resolveFrom, (hunfold l (List.mem_of_getElem? hl)).layout_eq]

/-- A record is allocated if it has no place yet, and its fields are resolved into their places
one after the other. -/
theorem exists_parts_of_record {names : Names} {base : String} {shape : Shape}
    {fields : List (Field Shape)} {source : Expr} {target : Option Expr} {resolution : Resolution}
    (hrecord : table.underlying? shape = some (.record fields))
    (hnames : names.Covers options source target)
    (h : table.resolveFrom names options base shape source target = .ok resolution) :
    ∃ (place : String) (allocation : List Stmt) (parts : List Resolution),
      (target = some resolution.value ∧ place = base ∧ allocation = [] ∨
        target = none ∧ resolution.value = .ident place ∧
          allocation = [.define place (.composite shape)]) ∧
      resolution.code = allocation ++ parts.flatMap Resolution.code ∧
      parts.length = fields.length ∧
      ∀ (i : Nat) field part, fields[i]? = some field → parts[i]? = some part →
        ∃ later, names.Claims later
            (Stmt.allLocals (allocation ++ (parts.take i).flatMap Resolution.code)) ∧
          later.Covers options (source.property field.name)
            (some (.field resolution.value field.name)) ∧
          table.resolveFrom later options (place ++ field.name) field.type
            (source.property field.name) (some (.field resolution.value field.name)) =
              .ok part := by
  unfold resolveFrom at h
  split at h
  · next layout hl =>
    cases h
    have hunfold := unfolds_of_layout hl
    rw [hunfold.underlying?_eq, Option.some.injEq] at hrecord
    cases layout with
    | scalar | optional | sequence => cases hrecord
    | record declared layouts =>
      obtain rfl := Shape.record.inj hrecord
      obtain rfl : declared = shape := hunfold.declared_eq
      have hfields : ∀ l ∈ layouts, table.Unfolds l.type.declared l.type := fun l hmem =>
        hunfold.part l.type (List.mem_map_of_mem hmem)
      cases target with
      | some place =>
        obtain ⟨parts, hcode, hlength, hparts⟩ :=
          exists_parts_of_fields base source place names hfields
        refine ⟨base, [], parts, .inl ⟨rfl, rfl, rfl⟩, hcode, by simpa using hlength, ?_⟩
        intro i field part hfield hpart
        obtain ⟨later, hclaims, hresolve⟩ := hparts i field part hfield hpart
        exact ⟨later, hclaims, (hnames.field field.name).later hclaims, hresolve⟩
      | none =>
        let place := names.claim base
        obtain ⟨parts, hcode, hlength, hparts⟩ :=
          exists_parts_of_fields place.1 source (.ident place.1) place.2 hfields
        refine ⟨place.1, [.define place.1 (.composite declared)], parts, .inr ⟨rfl, rfl, rfl⟩,
          congrArg (Stmt.define place.1 (.composite declared) :: ·) hcode,
          by simpa using hlength, ?_⟩
        intro i field part hfield hpart
        obtain ⟨later, hclaims, hresolve⟩ := hparts i field part hfield hpart
        exact ⟨later, hclaims.claim_then, ((hnames.claim base).field field.name).later hclaims,
          hresolve⟩
  · cases h

/-- The names of locals are cosmetic. Two resolutions of one shape that differ in the base and in
the names in use end alike, and exactly so where all names that they ask for are free. The
parameters of a call and the fields of a record are therefore converted, up to the names of locals,
as they would be on their own. -/
theorem resolve_cosmetic (table : AliasTable) (options : Options) :
    (∀ (shape : Shape) (source : Expr) (target : Option Expr) (base other : String)
        (names others : Names),
      names.Covers options source target → others.Covers options source target →
      SameUpToLocals (table.resolveFrom names options base shape source target)
          (table.resolveFrom others options other shape source target) ∧
        (base = other → names.Frees (table.asked base shape target) →
          others.Frees (table.asked other shape target) →
          table.resolveFrom names options base shape source target =
            table.resolveFrom others options other shape source target)) ∧
    (∀ (params : List Param) (arguments : Arguments),
      table.resolveArguments options params = .ok arguments →
      ∃ parts : List Resolution, arguments.code = parts.flatMap Resolution.code ∧
        arguments.values = parts.map Resolution.value ∧ parts.length = params.length ∧
        ∀ (i : Nat) param part, params[i]? = some param → parts[i]? = some part →
          let argument : Expr := .index (.ident options.args) (.int i)
          ∃ names, (Names.reserved options).Claims names
              (Stmt.allLocals ((parts.take i).flatMap Resolution.code)) ∧
            table.resolveFrom names options (param.localName i) param.shape argument none =
              .ok part ∧
            ∀ base,
              SameUpToLocals (.ok part) (table.resolve options base param.shape argument none) ∧
              (base = param.localName i → names.Frees (table.asked base param.shape none) →
                (Names.reserved options).Frees (table.asked base param.shape none) →
                table.resolve options base param.shape argument none = .ok part)) ∧
    ∀ (shape : Shape) (fields : List (Field Shape)) (source : Expr) (target : Option Expr)
        (base : String) (names : Names) (resolution : Resolution),
      table.underlying? shape = some (.record fields) → names.Covers options source target →
      table.resolveFrom names options base shape source target = .ok resolution →
      ∃ (place : String) (allocation : List Stmt) (parts : List Resolution),
        (target = some resolution.value ∧ place = base ∧ allocation = [] ∨
          target = none ∧ resolution.value = .ident place ∧
            allocation = [.define place (.composite shape)]) ∧
        resolution.code = allocation ++ parts.flatMap Resolution.code ∧
        parts.length = fields.length ∧
        ∀ (i : Nat) field part, fields[i]? = some field → parts[i]? = some part →
          let property := source.property field.name
          let target := some (.field resolution.value field.name)
          ∃ later, names.Claims later
              (Stmt.allLocals (allocation ++ (parts.take i).flatMap Resolution.code)) ∧
            later.Covers options property target ∧
            table.resolveFrom later options (place ++ field.name) field.type property target =
              .ok part ∧
            ∀ (other : String) (others : Names), others.Covers options property target →
              SameUpToLocals (.ok part)
                (table.resolveFrom others options other field.type property target) ∧
              (other = place ++ field.name → later.Frees (table.asked other field.type target) →
                others.Frees (table.asked other field.type target) →
                table.resolveFrom others options other field.type property target =
                  .ok part) := by
  refine ⟨?_, ?_, ?_⟩
  · intro shape source target base other names others hnames hothers
    refine ⟨resolveFrom_sameUpToLocals base other hnames hothers, ?_⟩
    rintro rfl hfree hfrees
    exact resolveFrom_eq hfree hfrees
  · intro params arguments h
    obtain ⟨parts, hcode, hvalues, hlength, hparts⟩ := exists_parts_of_resolveArguments h
    refine ⟨parts, hcode, hvalues, hlength, ?_⟩
    intro i param part hparam hpart argument
    obtain ⟨names, hclaims, hresolve⟩ := hparts i param part hparam hpart
    refine ⟨names, hclaims, hresolve, ?_⟩
    intro base
    have hreserved := Names.Covers.reserved options i
    rw [resolve_eq_resolveFrom, ← hresolve]
    refine ⟨resolveFrom_sameUpToLocals _ base (hreserved.later hclaims) hreserved, ?_⟩
    rintro rfl hfree hfrees
    exact resolveFrom_eq hfrees hfree
  · intro shape fields source target base names resolution hrecord hnames h
    obtain ⟨place, allocation, parts, hplace, hcode, hlength, hparts⟩ :=
      exists_parts_of_record hrecord hnames h
    refine ⟨place, allocation, parts, hplace, hcode, hlength, ?_⟩
    intro i field part hfield hpart property target
    obtain ⟨later, hclaims, hlater, hresolve⟩ := hparts i field part hfield hpart
    refine ⟨later, hclaims, hlater, hresolve, ?_⟩
    intro other others hothers
    rw [← hresolve]
    refine ⟨resolveFrom_sameUpToLocals _ other hlater hothers, ?_⟩
    rintro rfl hfree hfrees
    exact resolveFrom_eq hfrees hfree

/-- The locals of the second parameter give way to those of the first, and are otherwise those of
the parameter alone. -/
theorem resolve_cosmetic_drawRows : ∃ parts : List Resolution,
    rows.resolveArguments {} drawRows.params =
      .ok ⟨parts.map Resolution.value, parts.flatMap Resolution.code⟩ ∧
    ∀ part, parts[1]? = some part →
      SameUpToLocals (.ok part) (rows.resolve {} "aLen" (.sequence (.named "int") .dynamic)
        (.index (.ident "args") (.int 1)) none) := by
  obtain ⟨parts, hcode, hvalues, -, hparts⟩ :=
    (resolve_cosmetic rows {}).2.1 drawRows.params _ resolveArguments_drawRows
  refine ⟨parts, ?_, ?_⟩
  · rw [resolveArguments_drawRows, ← hcode, ← hvalues]
  · intro part hpart
    obtain ⟨names, -, -, halone⟩ := hparts 1 _ part rfl hpart
    exact (halone "aLen").1

end AliasTable

end Unmarshal
