import Mathlib.Data.List.Forall2
import Mathlib.Data.List.Nodup
import Mathlib.Data.List.Sort
import Unmarshal.Manifest.Lower
import Unmarshal.Proofs.Decoding
import Unmarshal.Proofs.DistinctKeys

/-!
# Lowering without loss

A manifest either becomes a project or is refused with a fault for each of its type texts that
cannot be read. The faults stand in the order of the texts: the aliases by their names, then the
parameters, function by function. A project has an entry for each alias and a signature for each
function, with all its parameters.
-/
/-- What is related to a member of the first list is a member of the second. -/
theorem List.Forall₂.exists_mem_right {α β : Type} {R : α → β → Prop} {as : List α} {bs : List β}
    (h : List.Forall₂ R as bs) {a : α} (ha : a ∈ as) : ∃ b ∈ bs, R a b := by
  induction h with
  | nil => cases ha
  | @cons a' b as bs hab _ ih =>
    rcases List.mem_cons.mp ha with rfl | hmem
    · exact ⟨b, .head _, hab⟩
    · obtain ⟨b', hb', hab'⟩ := ih hmem
      exact ⟨b', .tail _ hb', hab'⟩

namespace Unmarshal

namespace Checked

variable {α β : Type}

/-- What stands in the way of a value. -/
def faults : Checked α → List Fault
  | .ok _ => []
  | .error faults => faults

@[simp] theorem faults_map (f : α → β) (checked : Checked α) :
    faults (checked.map f) = faults checked := by
  cases checked <;> rfl

@[simp] theorem faults_both (first : Checked α) (second : Checked β) :
    faults (first.both second) = faults first ++ faults second := by
  cases first <;> cases second <;> simp [both, faults]

theorem faults_all (check : α → Checked β) (items : List α) :
    faults (all check items) = items.flatMap fun a => faults (check a) := by
  induction items with
  | nil => rfl
  | cons a items ih => simp [all, ih]

theorem map_eq_ok_iff {f : α → β} {checked : Checked α} {b : β} :
    checked.map f = .ok b ↔ ∃ a, checked = .ok a ∧ f a = b := by
  cases checked <;> simp [Except.map]

theorem both_eq_ok_iff {first : Checked α} {second : Checked β} {a : α} {b : β} :
    first.both second = .ok (a, b) ↔ first = .ok a ∧ second = .ok b := by
  cases first <;> cases second <;> simp [both]

theorem all_eq_ok_iff {check : α → Checked β} {items : List α} {values : List β} :
    all check items = .ok values ↔ List.Forall₂ (fun a b => check a = .ok b) items values := by
  induction items generalizing values with
  | nil => cases values <;> simp [all]
  | cons a items ih =>
    rw [all, map_eq_ok_iff, List.forall₂_cons_left_iff]
    simp only [Prod.exists, both_eq_ok_iff, ih]
    constructor
    · rintro ⟨b, bs, ⟨hb, hbs⟩, rfl⟩
      exact ⟨b, bs, hb, hbs, rfl⟩
    · rintro ⟨b, bs, hb, hbs, rfl⟩
      exact ⟨b, bs, ⟨hb, hbs⟩, rfl⟩

/-- A list is taken if each of its items is. -/
theorem exists_all_eq_ok_iff {check : α → Checked β} {items : List α} :
    (∃ values, all check items = .ok values) ↔ ∀ a ∈ items, ∃ b, check a = .ok b := by
  induction items with
  | nil => simp [all]
  | cons a items ih =>
    rw [List.forall_mem_cons, ← ih]
    simp only [all_eq_ok_iff, List.forall₂_cons_left_iff]
    constructor
    · rintro ⟨values, b, bs, hb, hbs, -⟩
      exact ⟨⟨b, hb⟩, bs, hbs⟩
    · rintro ⟨⟨b, hb⟩, bs, hbs⟩
      exact ⟨b :: bs, b, bs, hb, hbs, rfl⟩

end Checked

/-- The fault of a text that is declared at an origin, if it cannot be read. -/
def Fault.of? (declared : Origin × String) : Option Fault :=
  match TypeText.read declared.2 with
  | .ok _ => none
  | .error error => some ⟨declared.1, declared.2, error⟩

theorem Origin.readType_eq_ok_iff {origin : Origin} {text : String} {shape : Shape} :
    origin.readType text = .ok shape ↔ TypeText.read text = .ok shape := by
  unfold readType
  cases TypeText.read text <;> simp

theorem Origin.faults_readType (origin : Origin) (text : String) :
    Checked.faults (origin.readType text) = (Fault.of? (origin, text)).toList := by
  unfold readType Fault.of?
  cases TypeText.read text <;> rfl

/-- An alias table made from entries with distinct names has those entries and no other. -/
theorem AliasTable.find?_ofList_eq_some_iff {entries : List (String × Shape)}
    (h : (entries.map Prod.fst).Nodup) {name : String} {shape : Shape} :
    (AliasTable.ofList entries).find? name = some shape ↔ (name, shape) ∈ entries := by
  rw [find?_ofList, List.lookup_eq_some_iff]
  constructor
  · rintro ⟨before, after, hentries, -⟩
    rw [← List.mem_reverse, hentries]
    simp
  · intro hmem
    obtain ⟨before, after, hentries⟩ := List.append_of_mem (List.mem_reverse.mpr hmem)
    refine ⟨before, after, hentries, fun p hp => ?_⟩
    rw [← List.nodup_reverse, ← List.map_reverse, hentries] at h
    simp only [List.map_append, List.map_cons, List.nodup_append, List.mem_cons] at h
    have hne : p.1 ≠ name := h.2.2 p.1 (List.mem_map_of_mem hp) name (.inl rfl)
    simpa using hne.symm

theorem Json.Distinct.entriesAt {j : Json} (h : j.Distinct) (key : String) :
    ((j.entriesAt key).map Prod.fst).Nodup := by
  unfold Json.entriesAt
  cases hentries : j.at? [key] >>= Json.entries? with
  | none => exact .nil
  | some entries =>
    obtain ⟨table, htable, hentries⟩ := Option.bind_eq_some_iff.mp hentries
    obtain rfl := Json.entries?_eq_some_iff.mp hentries
    cases h with
    | obj _ each =>
      rw [Json.at?_single] at htable
      cases each _ (Json.mem_of_lookup htable) with
      | obj keys _ => exact keys
    | _ => cases htable

namespace Manifest

/-- The aliases of a manifest are in the order of their names, and each has one text. -/
def Ordered (manifest : Manifest) : Prop :=
  manifest.types.Pairwise fun first second => first.1 < second.1

theorem Ordered.nodup {manifest : Manifest} (h : manifest.Ordered) :
    (manifest.types.map Prod.fst).Nodup :=
  List.pairwise_map.mpr (h.imp fun hlt => String.ne_of_lt hlt)

/-- Whatever document a manifest is decoded from, its aliases are ordered. -/
theorem ordered_of_ofToml? {text : String} {manifest : Manifest}
    (h : ofToml? text = some manifest) : manifest.Ordered := by
  obtain ⟨tree, htree, h⟩ := Option.bind_eq_some_iff.mp h
  have hkept : Keeps tree manifest := keeps h
  have hkeys := (hkept.types.map Prod.fst).nodup_iff.mpr
    ((Toml.distinct_of_read htree).entriesAt "types")
  rw [List.map_map] at hkeys
  have hdistinct : manifest.types.Pairwise fun first second => first.1 ≠ second.1 :=
    List.pairwise_map.mp hkeys
  exact (hkept.ordered.and hdistinct).imp fun ⟨hle, hne⟩ => Std.lt_of_le_of_ne hle hne

/-- All type texts of a manifest with their origins: those of the aliases, then those of the
parameters, function by function, each with its position. -/
def declaredTypes (manifest : Manifest) : List (Origin × String) :=
  (manifest.types.map fun entry => (.alias entry.1, entry.2)) ++
    manifest.functions.flatMap fun function =>
      function.params.zipIdx.map fun (param, index) =>
        (.param function.name index param.name, param.type)

/-- The signature has the name and the parameters of the function, with the shapes that their
texts are read as. -/
def Declares (function : FunctionDecl) (signature : Signature) : Prop :=
  signature.name = function.name ∧
    List.Forall₂ (fun declared param => param.name = declared.name ∧
      TypeText.read declared.type = .ok param.shape) function.params signature.params

theorem lowerAlias_eq_ok_iff {entry : String × String} {lowered : String × Shape} :
    lowerAlias entry = .ok lowered ↔
      lowered.1 = entry.1 ∧ TypeText.read entry.2 = .ok lowered.2 := by
  obtain ⟨name, shape⟩ := lowered
  simp only [lowerAlias, Checked.map_eq_ok_iff, Origin.readType_eq_ok_iff, Prod.mk.injEq]
  constructor
  · rintro ⟨_, hread, rfl, rfl⟩
    exact ⟨rfl, hread⟩
  · rintro ⟨rfl, hread⟩
    exact ⟨shape, hread, rfl, rfl⟩

theorem lowerFunction_eq_ok_iff {function : FunctionDecl} {signature : Signature} :
    lowerFunction function = .ok signature ↔ Declares function signature := by
  obtain ⟨name, params⟩ := signature
  have hparam (declared : ParamDecl × Nat) (param : Param) :
      ((Origin.param function.name declared.2 declared.1.name).readType declared.1.type).map
          (fun shape => (⟨declared.1.name, shape⟩ : Param)) = .ok param ↔
        param.name = declared.1.name ∧ TypeText.read declared.1.type = .ok param.shape := by
    obtain ⟨name, shape⟩ := param
    simp only [Checked.map_eq_ok_iff, Origin.readType_eq_ok_iff, Param.mk.injEq]
    constructor
    · rintro ⟨_, hread, rfl, rfl⟩
      exact ⟨rfl, hread⟩
    · rintro ⟨rfl, hread⟩
      exact ⟨shape, hread, rfl, rfl⟩
  -- the positions matter to the faults only, so they may be left out here
  have hparams := List.forall₂_map_left_iff (f := Prod.fst) (l := function.params.zipIdx)
    (u := params) (R := fun declared param => param.name = declared.name ∧
      TypeText.read declared.type = .ok param.shape)
  rw [List.zipIdx_map_fst] at hparams
  simp only [lowerFunction, Checked.map_eq_ok_iff, Checked.all_eq_ok_iff, hparam, Declares,
    Signature.mk.injEq, hparams]
  constructor
  · rintro ⟨_, hall, rfl, rfl⟩
    exact ⟨rfl, hall⟩
  · rintro ⟨rfl, hall⟩
    exact ⟨params, hall, rfl, rfl⟩

/-- The faults of a manifest are those of its texts, in their order. -/
theorem faults_lower (manifest : Manifest) :
    Checked.faults manifest.lower = manifest.declaredTypes.filterMap Fault.of? := by
  simp only [lower, lowerAlias, lowerFunction, Checked.faults_map, Checked.faults_both,
    Checked.faults_all, Origin.faults_readType, declaredTypes, List.flatMap_append,
    List.filterMap_eq_flatMap_toList, List.flatMap_map, List.flatMap_assoc]

theorem lower_eq_ok_iff {manifest : Manifest} {project : Project} :
    manifest.lower = .ok project ↔
      project.name = manifest.package.name ∧ project.options = manifest.options ∧
        List.Forall₂ (fun entry lowered => lowered.1 = entry.1 ∧
          TypeText.read entry.2 = .ok lowered.2) manifest.types project.aliases ∧
        List.Forall₂ Declares manifest.functions project.signatures := by
  obtain ⟨name, options, aliases, signatures⟩ := project
  simp only [lower, Checked.map_eq_ok_iff, Prod.exists, Checked.both_eq_ok_iff,
    Checked.all_eq_ok_iff, lowerAlias_eq_ok_iff, lowerFunction_eq_ok_iff, Project.mk.injEq]
  constructor
  · rintro ⟨_, _, ⟨hentries, hfunctions⟩, rfl, rfl, rfl, rfl⟩
    exact ⟨rfl, rfl, hentries, hfunctions⟩
  · rintro ⟨rfl, rfl, hentries, hfunctions⟩
    exact ⟨aliases, signatures, ⟨hentries, hfunctions⟩, rfl, rfl, rfl, rfl⟩

theorem exists_lower_eq_ok {manifest : Manifest}
    (h : ∀ declared ∈ manifest.declaredTypes, ∃ shape, TypeText.read declared.2 = .ok shape) :
    ∃ project, manifest.lower = .ok project := by
  obtain ⟨htypes, hparams⟩ := List.forall_mem_append.mp h
  have haliases : ∀ entry ∈ manifest.types, ∃ lowered, lowerAlias entry = .ok lowered := by
    intro entry hentry
    obtain ⟨shape, hread⟩ := htypes _ (List.mem_map_of_mem hentry)
    exact ⟨(entry.1, shape), lowerAlias_eq_ok_iff.mpr ⟨rfl, hread⟩⟩
  have hfunctions : ∀ function ∈ manifest.functions,
      ∃ signature, lowerFunction function = .ok signature := by
    intro function hfunction
    have hchecks : ∀ declared ∈ function.params.zipIdx, ∃ param,
        ((Origin.param function.name declared.2 declared.1.name).readType declared.1.type).map
          (fun shape => (⟨declared.1.name, shape⟩ : Param)) = .ok param := by
      intro declared hdeclared
      obtain ⟨shape, hread⟩ := hparams _
        (List.mem_flatMap.mpr ⟨function, hfunction, List.mem_map_of_mem hdeclared⟩)
      exact ⟨_, Checked.map_eq_ok_iff.mpr ⟨shape, Origin.readType_eq_ok_iff.mpr hread, rfl⟩⟩
    obtain ⟨params, hall⟩ := Checked.exists_all_eq_ok_iff.mpr hchecks
    exact ⟨_, Checked.map_eq_ok_iff.mpr ⟨params, hall, rfl⟩⟩
  obtain ⟨aliases, haliases⟩ := Checked.exists_all_eq_ok_iff.mpr haliases
  obtain ⟨signatures, hsignatures⟩ := Checked.exists_all_eq_ok_iff.mpr hfunctions
  exact ⟨_, Checked.map_eq_ok_iff.mpr
    ⟨(aliases, signatures), Checked.both_eq_ok_iff.mpr ⟨haliases, hsignatures⟩, rfl⟩⟩

/-- A manifest is refused if one of its texts cannot be read. -/
theorem exists_lower_eq_error_iff {manifest : Manifest} :
    (∃ faults, manifest.lower = .error faults) ↔
      ∃ declared ∈ manifest.declaredTypes, ∃ error, TypeText.read declared.2 = .error error := by
  constructor
  · rintro ⟨faults, herror⟩
    by_contra hnone
    have hall : ∀ declared ∈ manifest.declaredTypes,
        ∃ shape, TypeText.read declared.2 = .ok shape := by
      intro declared hmem
      cases hread : TypeText.read declared.2 with
      | ok shape => exact ⟨shape, rfl⟩
      | error error => exact absurd ⟨declared, hmem, error, hread⟩ hnone
    obtain ⟨project, hproject⟩ := exists_lower_eq_ok hall
    rw [herror] at hproject
    cases hproject
  · rintro ⟨declared, hmem, error, hread⟩
    cases hlower : manifest.lower with
    | error faults => exact ⟨faults, rfl⟩
    | ok project =>
      have hfaults := manifest.faults_lower
      rw [hlower] at hfaults
      have hnone := List.filterMap_eq_nil_iff.mp hfaults.symm declared hmem
      simp [Fault.of?, hread] at hnone

/-- Lowering refuses a manifest exactly if some type text of it cannot be read, and then reports
one fault for each such text, in the order of the texts: the aliases by name, then the parameters
of each function by position. Otherwise each alias stands for what its text is read as, no other
name stands for anything, and every function is kept in its place with all its parameters. -/
theorem lower_reports_all {manifest : Manifest} (h : manifest.Ordered) :
    ((∃ faults, manifest.lower = .error faults) ↔
      ∃ declared ∈ manifest.declaredTypes, ∃ error, TypeText.read declared.2 = .error error) ∧
    (∀ faults, manifest.lower = .error faults →
      faults = manifest.declaredTypes.filterMap Fault.of?) ∧
    ∀ project, manifest.lower = .ok project →
      project.name = manifest.package.name ∧ project.options = manifest.options ∧
        (∀ entry ∈ manifest.types, ∃ shape, TypeText.read entry.2 = .ok shape ∧
          project.table.find? entry.1 = some shape) ∧
        (∀ name, name ∉ manifest.types.map Prod.fst → project.table.find? name = none) ∧
        List.Forall₂ Declares manifest.functions project.signatures := by
  refine ⟨exists_lower_eq_error_iff, ?_, ?_⟩
  · intro faults herror
    rw [← faults_lower, herror]
    rfl
  · intro project hproject
    obtain ⟨hname, hoptions, haliases, hfunctions⟩ := lower_eq_ok_iff.mp hproject
    have hkeys : project.aliases.map Prod.fst = manifest.types.map Prod.fst := by
      rw [← List.forall₂_eq_eq_eq, List.forall₂_map_left_iff, List.forall₂_map_right_iff]
      exact (haliases.imp fun _ _ hlowered => hlowered.1).flip
    have hdistinct : (project.aliases.map Prod.fst).Nodup := hkeys ▸ h.nodup
    refine ⟨hname, hoptions, ?_, ?_, hfunctions⟩
    · intro entry hentry
      obtain ⟨⟨name, shape⟩, hmem, hsame, hread⟩ := haliases.exists_mem_right hentry
      cases hsame
      exact ⟨shape, hread, (AliasTable.find?_ofList_eq_some_iff hdistinct).mpr hmem⟩
    · intro name hnew
      rw [Option.eq_none_iff_forall_ne_some]
      intro shape hfound
      have hmem := (AliasTable.find?_ofList_eq_some_iff hdistinct).mp hfound
      exact hnew (hkeys ▸ List.mem_map_of_mem hmem)

/-- A manifest in which one alias of two and two parameters of three cannot be read. -/
def garbled : Manifest :=
  ⟨⟨"p", none⟩, {}, [("Cell", "[]int"), ("Wall", "[3")],
    [⟨"Draw", [⟨"cell", "map"⟩, ⟨"x", "int"⟩, ⟨"y", "Wall]"⟩]⟩]⟩

theorem lower_reports_all_garbled : garbled.Ordered ∧ ∃ faults, garbled.lower = .error faults ∧
    faults.map Fault.origin =
      [.alias "Wall", .param "Draw" 0 "cell", .param "Draw" 2 "y"] := by
  have hordered : garbled.Ordered := by
    unfold Ordered garbled
    decide
  obtain ⟨hrefused, hreported, -⟩ := lower_reports_all hordered
  have hbad : ∃ error, TypeText.read "[3" = .error error := by
    have hnot : (TypeText.read "[3").toBool = false := by decide +kernel
    cases hread : TypeText.read "[3" with
    | error error => exact ⟨error, rfl⟩
    | ok shape =>
      rw [hread] at hnot
      cases hnot
  obtain ⟨faults, herror⟩ := hrefused.mpr
    ⟨(.alias "Wall", "[3"), by simp [declaredTypes, garbled], hbad⟩
  refine ⟨hordered, faults, herror, ?_⟩
  rw [hreported faults herror]
  decide +kernel

end Manifest

end Unmarshal
