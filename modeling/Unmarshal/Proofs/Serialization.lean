import Mathlib.Algebra.Group.Int.Defs
import Unmarshal.Shape.Serial

/-!
# Faithful serialization

Encoding and decoding of shapes are inverse to one another up to what the format does not look at:
a tree decodes to a shape exactly if it is the tree of that shape once the keys that the format
does not know are gone. What does not decode has a fault that can be pointed at.
-/
namespace Unmarshal

namespace Json

@[simp] theorem tagged_inj {tag other : String} {j k : Json} :
    tagged tag j = tagged other k ↔ tag = other ∧ j = k := by
  simp [tagged]

/-! ## What the format looks at -/

/-- The entries of an object under the given keys. An object stands for a finite map, in which the
first entry for a key counts. -/
def restrict (keys : List String) (entries : List (String × Json)) : List (String × Json) :=
  keys.filterMap fun key => (lookup key entries).map fun j => (key, j)

theorem lookup_restrict (key : String) (keys : List String) (entries : List (String × Json)) :
    lookup key (restrict keys entries) = if key ∈ keys then lookup key entries else none := by
  induction keys with
  | nil => rfl
  | cons k keys ih =>
    have hrest : lookup key (restrict (k :: keys) entries) =
        if k = key then (lookup key entries).or (lookup key (restrict keys entries))
        else lookup key (restrict keys entries) := by
      cases hk : lookup k entries with
      | none => by_cases h : k = key <;> simp_all [restrict]
      | some j => by_cases h : k = key <;> simp_all [restrict, lookup]
    rw [hrest, ih]
    by_cases h : k = key
    · subst h
      cases lookup k entries <;> simp
    · simp [h, Ne.symm h]

theorem restrict_pair {first second : String} {entries : List (String × Json)} {j k : Json}
    (hfirst : lookup first entries = some j) (hsecond : lookup second entries = some k) :
    restrict [first, second] entries = [(first, j), (second, k)] := by
  simp [restrict, hfirst, hsecond]

theorem lookup_of_mem {key : String} {entries : List (String × Json)} {j : Json}
    (hkeys : (entries.map Prod.fst).Nodup) (h : (key, j) ∈ entries) :
    lookup key entries = some j := by
  induction entries with
  | nil => cases h
  | cons entry rest ih =>
    obtain ⟨hnew, hkeys⟩ := List.nodup_cons.mp hkeys
    rcases List.mem_cons.mp h with rfl | h
    · exact lookup_cons_self ..
    · have hne : entry.1 ≠ key := fun heq => hnew (heq ▸ List.mem_map_of_mem h)
      exact (lookup_cons_ne hne ..).trans (ih hkeys h)

/-- In an object without repeated keys the restriction removes the entries under other keys and
keeps the rest. -/
theorem mem_restrict {keys : List String} {entries : List (String × Json)}
    (hkeys : (entries.map Prod.fst).Nodup) {entry : String × Json} :
    entry ∈ restrict keys entries ↔ entry ∈ entries ∧ entry.1 ∈ keys := by
  obtain ⟨key, j⟩ := entry
  simp only [restrict, List.mem_filterMap, Option.map_eq_some_iff, Prod.mk.injEq]
  constructor
  · rintro ⟨_, hmem, _, hlookup, rfl, rfl⟩
    exact ⟨mem_of_lookup hlookup, hmem⟩
  · rintro ⟨hentry, hmem⟩
    exact ⟨key, hmem, j, lookup_of_mem hkeys hentry, rfl, rfl⟩

/-- An extent in its usual spelling. -/
def trimmedExtent : Json → Json
  | .obj [("dynamic", .null)] => .str "dynamic"
  | j => j

mutual

/-- A serialized shape without the keys of sequences and fields that the format does not know. -/
def trimmed : Json → Json
  | .obj [("optional", j)] => .tagged "optional" (trimmed j)
  | .obj [("sequence", .obj entries)] =>
    .tagged "sequence" (.obj (restrict ["elem", "len"] (trimmedEntries entries)))
  | .obj [("record", .arr items)] => .tagged "record" (.arr (trimmedFields items))
  | j => j

def trimmedEntries : List (String × Json) → List (String × Json)
  | [] => []
  | (key, j) :: rest =>
    (key, if key = "len" then trimmedExtent j
      else if key = "name" then j else trimmed j) :: trimmedEntries rest

def trimmedFields : List Json → List Json
  | [] => []
  | .obj entries :: rest =>
    .obj (restrict ["name", "shape"] (trimmedEntries entries)) :: trimmedFields rest
  | j :: rest => j :: trimmedFields rest

end

theorem trimmed_other {j : Json} (hoptional : ∀ k, j ≠ .tagged "optional" k)
    (hsequence : ∀ entries, j ≠ .tagged "sequence" (.obj entries))
    (hrecord : ∀ items, j ≠ .tagged "record" (.arr items)) : j.trimmed = j := by
  unfold trimmed
  split
  · exact absurd rfl (hoptional _)
  · exact absurd rfl (hsequence _)
  · exact absurd rfl (hrecord _)
  · rfl

/-- What trimming makes of a value, by the key it stands under. -/
private def trimmedAt (key : String) (j : Json) : Json :=
  if key = "len" then j.trimmedExtent else if key = "name" then j else j.trimmed

private theorem lookup_trimmedEntries (key : String) (entries : List (String × Json)) :
    lookup key (trimmedEntries entries) = (lookup key entries).map (trimmedAt key) := by
  induction entries with
  | nil => simp [trimmedEntries, lookup]
  | cons entry rest ih =>
    obtain ⟨k, j⟩ := entry
    by_cases h : k = key
    · subst h
      simp [trimmedEntries, trimmedAt]
    · simp [trimmedEntries, lookup_cons_ne h, ih]

private theorem sizeOf_lt_of_lookup {key : String} {entries : List (String × Json)} {j : Json}
    (h : lookup key entries = some j) : sizeOf j < sizeOf entries := by
  have hentry : sizeOf (key, j) < sizeOf entries := List.sizeOf_lt_of_mem (mem_of_lookup h)
  simp only [Prod.mk.sizeOf_spec] at hentry
  omega

theorem eq_str_of_text? {j : Json} {s : String} (h : j.text? = some s) : j = .str s := by
  unfold text? at h
  split at h <;> cases h
  rfl

/-- Induction along the forms of serialized shapes. The statement is had for every value that an
object of a form holds, whatever its key. -/
@[elab_as_elim]
theorem formInduction {motive : Json → Prop}
    (named : ∀ name, motive (.tagged "named" (.str name)))
    (optional : ∀ j, motive j → motive (.tagged "optional" j))
    (sequence : ∀ entries, (∀ key j, lookup key entries = some j → motive j) →
      motive (.tagged "sequence" (.obj entries)))
    (record : ∀ items, (∀ entries, .obj entries ∈ items →
      ∀ key j, lookup key entries = some j → motive j) → motive (.tagged "record" (.arr items)))
    (other : ∀ j, (∀ name, j ≠ .tagged "named" (.str name)) → (∀ k, j ≠ .tagged "optional" k) →
      (∀ entries, j ≠ .tagged "sequence" (.obj entries)) →
      (∀ items, j ≠ .tagged "record" (.arr items)) → motive j) (j : Json) : motive j := by
  induction hsize : sizeOf j using Nat.strongRecOn generalizing j with
  | ind size ih =>
    subst hsize
    by_cases hnamed : ∃ name, j = .tagged "named" (.str name)
    · obtain ⟨name, rfl⟩ := hnamed
      exact named name
    by_cases hoptional : ∃ k, j = .tagged "optional" k
    · obtain ⟨k, rfl⟩ := hoptional
      exact optional k (ih _ (by simp [tagged]; omega) k rfl)
    by_cases hsequence : ∃ entries, j = .tagged "sequence" (.obj entries)
    · obtain ⟨entries, rfl⟩ := hsequence
      refine sequence entries fun key k hlookup => ih _ ?_ k rfl
      have hlt := sizeOf_lt_of_lookup hlookup
      simp [tagged]
      omega
    by_cases hrecord : ∃ items, j = .tagged "record" (.arr items)
    · obtain ⟨items, rfl⟩ := hrecord
      refine record items fun entries hentries key k hlookup => ih _ ?_ k rfl
      have hlt := sizeOf_lt_of_lookup hlookup
      have hitem := List.sizeOf_lt_of_mem hentries
      simp [tagged] at hitem ⊢
      omega
    exact other j (by simpa using hnamed) (by simpa using hoptional) (by simpa using hsequence)
      (by simpa using hrecord)

/-! ## Faults -/

/-- An extent as the format spells it. -/
def IsExtent (j : Json) : Prop :=
  j = .str "dynamic" ∨ j = .tagged "dynamic" .null ∨
    ∃ n : Int, 0 ≤ n ∧ n < 2 ^ 64 ∧ j = .tagged "fixed" (.int n)

/-- A tree that is no serialized shape: the tag is missing, unknown or not alone, what it holds is
of the wrong type, a key of a sequence or of a field is missing or holds what it must not, or there
is a fault further in. -/
inductive Faulty : Json → Prop where
  | tag {j : Json} (h : ∀ tag ∈ ["named", "optional", "sequence", "record"], ∀ content,
      j ≠ .tagged tag content) : Faulty j
  | name {content : Json} (h : ∀ name, content ≠ .str name) : Faulty (.tagged "named" content)
  | pointee {content : Json} (h : Faulty content) : Faulty (.tagged "optional" content)
  | sequence {content : Json} (h : ∀ entries, content ≠ .obj entries) :
      Faulty (.tagged "sequence" content)
  | sequenceKey {entries : List (String × Json)} {key : String} (hkey : key ∈ ["elem", "len"])
      (h : lookup key entries = none) : Faulty (.tagged "sequence" (.obj entries))
  | elem {entries : List (String × Json)} {elem : Json} (helem : lookup "elem" entries = some elem)
      (h : Faulty elem) : Faulty (.tagged "sequence" (.obj entries))
  | extent {entries : List (String × Json)} {extent : Json}
      (hextent : lookup "len" entries = some extent) (h : ¬ extent.IsExtent) :
      Faulty (.tagged "sequence" (.obj entries))
  | record {content : Json} (h : ∀ items, content ≠ .arr items) :
      Faulty (.tagged "record" content)
  | field {items : List Json} {item : Json} (hitem : item ∈ items)
      (h : ∀ entries, item ≠ .obj entries) : Faulty (.tagged "record" (.arr items))
  | fieldKey {items : List Json} {entries : List (String × Json)} {key : String}
      (hitem : .obj entries ∈ items) (hkey : key ∈ ["name", "shape"])
      (h : lookup key entries = none) : Faulty (.tagged "record" (.arr items))
  | fieldName {items : List Json} {entries : List (String × Json)} {name : Json}
      (hitem : .obj entries ∈ items) (hname : lookup "name" entries = some name)
      (h : ∀ text, name ≠ .str text) : Faulty (.tagged "record" (.arr items))
  | fieldType {items : List Json} {entries : List (String × Json)} {type : Json}
      (hitem : .obj entries ∈ items) (htype : lookup "shape" entries = some type)
      (h : Faulty type) : Faulty (.tagged "record" (.arr items))

theorem text?_eq_none_iff {j : Json} : j.text? = none ↔ ∀ text, j ≠ .str text := by
  cases j <;> simp [text?]

end Json

open Json

namespace Extent

theorem toJson_eq_trimmedExtent {j : Json} {extent : Extent} (h : ofJson? j = some extent) :
    extent.toJson = j.trimmedExtent := by
  unfold ofJson? at h
  split at h
  · cases h
    rfl
  · cases h
    rfl
  · next n =>
    obtain ⟨⟨hle, hlt⟩, h⟩ := Option.ite_none_right_eq_some.mp h
    cases h
    have hvalue : max n 0 = n := Int.max_eq_left hle
    simpa [toJson, tagged, ofNat, trimmedExtent, Nat.mod_eq_of_lt hlt] using hvalue
  · cases h

theorem ofJson?_trimmedExtent (j : Json) : ofJson? j.trimmedExtent = ofJson? j := by
  unfold trimmedExtent
  split <;> rfl

end Extent

namespace Shape

theorem ofJson?_sequence (entries : List (String × Json)) :
    ofJson? (.tagged "sequence" (.obj entries)) =
      (lookup "elem" entries >>= ofJson?).bind fun elem =>
        (lookup "len" entries >>= Extent.ofJson?).map fun extent => .sequence elem extent := by
  rw [tagged, ofJson?, ofKey?_eq]
  cases lookup "elem" entries >>= ofJson? <;> cases lookup "len" entries >>= Extent.ofJson? <;> rfl

theorem ofItems?_cons (entries : List (String × Json)) (items : List Json) :
    ofItems? (.obj entries :: items) =
      (lookup "name" entries >>= text?).bind fun name =>
        (lookup "shape" entries >>= ofJson?).bind fun type =>
          (ofItems? items).map fun fields => ⟨name, type⟩ :: fields := by
  rw [ofItems?, ofKey?_eq]
  cases lookup "name" entries >>= text? <;> cases lookup "shape" entries >>= ofJson? <;>
    cases ofItems? items <;> rfl

theorem ofJson?_other {j : Json} (hnamed : ∀ name, j ≠ .tagged "named" (.str name))
    (hoptional : ∀ k, j ≠ .tagged "optional" k)
    (hsequence : ∀ entries, j ≠ .tagged "sequence" (.obj entries))
    (hrecord : ∀ items, j ≠ .tagged "record" (.arr items)) : ofJson? j = none := by
  unfold ofJson?
  split
  · exact absurd rfl (hnamed _)
  · exact absurd rfl (hoptional _)
  · exact absurd rfl (hsequence _)
  · exact absurd rfl (hrecord _)
  · rfl

private theorem toJsonFields_eq_trimmedFields {items : List Json} {fields : List (Field Shape)}
    (ih : ∀ entries, .obj entries ∈ items → ∀ key j, lookup key entries = some j →
      ∀ shape, ofJson? j = some shape → shape.toJson = j.trimmed)
    (h : ofItems? items = some fields) : toJsonFields fields = trimmedFields items := by
  induction items generalizing fields with
  | nil =>
    cases h
    rfl
  | cons item items ihItems =>
    cases item with
    | obj entries =>
      rw [ofItems?_cons] at h
      simp only [Option.bind_eq_some_iff, Option.map_eq_some_iff, Option.bind_eq_bind] at h
      obtain ⟨name, ⟨j, hj, hname⟩, type, ⟨k, hk, htype⟩, rest, hrest, rfl⟩ := h
      obtain rfl : j = .str name := eq_str_of_text? hname
      have hentries : restrict ["name", "shape"] (trimmedEntries entries) =
          [("name", .str name), ("shape", k.trimmed)] :=
        restrict_pair (by rw [lookup_trimmedEntries, hj]; rfl)
          (by rw [lookup_trimmedEntries, hk]; rfl)
      have hothers := ihItems (fun entries hmem => ih entries (.tail _ hmem)) hrest
      rw [toJsonFields, trimmedFields, hentries, ih entries (.head _) "shape" k hk type htype,
        hothers]
    | _ => cases h

theorem toJson_eq_trimmed {j : Json} {shape : Shape} (h : ofJson? j = some shape) :
    shape.toJson = j.trimmed := by
  induction j using formInduction generalizing shape with
  | named name =>
    cases h
    rfl
  | optional j ih =>
    obtain ⟨pointee, hj, rfl⟩ := Option.map_eq_some_iff.mp h
    rw [toJson, ih hj]
    rfl
  | sequence entries ih =>
    rw [ofJson?_sequence] at h
    simp only [Option.bind_eq_some_iff, Option.map_eq_some_iff, Option.bind_eq_bind] at h
    obtain ⟨elem, ⟨j, hj, helem⟩, extent, ⟨k, hk, hextent⟩, rfl⟩ := h
    have hentries : restrict ["elem", "len"] (trimmedEntries entries) =
        [("elem", j.trimmed), ("len", k.trimmedExtent)] :=
      restrict_pair (by rw [lookup_trimmedEntries, hj]; rfl)
        (by rw [lookup_trimmedEntries, hk]; rfl)
    rw [toJson, ih "elem" j hj helem, Extent.toJson_eq_trimmedExtent hextent, ← hentries]
    rfl
  | record items ih =>
    obtain ⟨fields, hfields, rfl⟩ := Option.map_eq_some_iff.mp h
    have htrimmed := toJsonFields_eq_trimmedFields
      (fun entries hmem key j hj _ => ih entries hmem key j hj) hfields
    rw [toJson, htrimmed]
    rfl
  | other j hnamed hoptional hsequence hrecord =>
    rw [ofJson?_other hnamed hoptional hsequence hrecord] at h
    cases h

private theorem ofItems?_trimmedFields {items : List Json}
    (ih : ∀ entries, .obj entries ∈ items → ∀ key j, lookup key entries = some j →
      ofJson? j.trimmed = ofJson? j) : ofItems? (trimmedFields items) = ofItems? items := by
  induction items with
  | nil => rfl
  | cons item items ihItems =>
    cases item with
    | obj entries =>
      have hothers := ihItems fun entries hmem => ih entries (.tail _ hmem)
      have htype : lookup "shape" (trimmedEntries entries) >>= ofJson? =
          lookup "shape" entries >>= ofJson? := by
        rw [lookup_trimmedEntries]
        cases hj : lookup "shape" entries with
        | none => rfl
        | some j => exact ih entries (.head _) "shape" j hj
      have hname : lookup "name" (trimmedEntries entries) = lookup "name" entries := by
        rw [lookup_trimmedEntries]
        cases lookup "name" entries <;> rfl
      rw [trimmedFields, ofItems?_cons, ofItems?_cons, lookup_restrict, lookup_restrict,
        if_pos (by simp), if_pos (by simp), hname, htype, hothers]
    | _ => rfl

/-- What trimming removes does not count. -/
theorem ofJson?_trimmed (j : Json) : ofJson? j.trimmed = ofJson? j := by
  induction j using formInduction with
  | named name => rfl
  | optional j ih => exact congrArg (Option.map Shape.optional) ih
  | sequence entries ih =>
    have helem : lookup "elem" (trimmedEntries entries) >>= ofJson? =
        lookup "elem" entries >>= ofJson? := by
      rw [lookup_trimmedEntries]
      cases hj : lookup "elem" entries with
      | none => rfl
      | some j => exact ih "elem" j hj
    have hextent : lookup "len" (trimmedEntries entries) >>= Extent.ofJson? =
        lookup "len" entries >>= Extent.ofJson? := by
      rw [lookup_trimmedEntries]
      cases lookup "len" entries with
      | none => rfl
      | some j => exact Extent.ofJson?_trimmedExtent j
    have htrimmed : (Json.tagged "sequence" (.obj entries)).trimmed = .tagged "sequence"
        (.obj (restrict ["elem", "len"] (trimmedEntries entries))) := rfl
    rw [htrimmed, ofJson?_sequence, ofJson?_sequence, lookup_restrict, lookup_restrict,
      if_pos (by simp), if_pos (by simp), helem, hextent]
  | record items ih =>
    exact congrArg (Option.map Shape.record)
      (ofItems?_trimmedFields fun entries hmem key j hj => ih entries hmem key j hj)
  | other j _ hoptional hsequence hrecord => rw [trimmed_other hoptional hsequence hrecord]

/-! ## What is rejected -/

theorem ofItems?_eq_none_iff {items : List Json} :
    ofItems? items = none ↔ ∃ item ∈ items, (∀ entries, item ≠ .obj entries) ∨
      ∃ entries, item = .obj entries ∧ ((lookup "name" entries >>= text?) = none ∨
        (lookup "shape" entries >>= ofJson?) = none) := by
  induction items with
  | nil => simp [ofItems?]
  | cons item items ih =>
    simp only [List.mem_cons, exists_eq_or_imp, ← ih]
    cases item with
    | obj entries =>
      rw [ofItems?_cons]
      simp only [ne_eq, obj.injEq, forall_eq', exists_eq_left', false_or]
      generalize lookup "name" entries >>= text? = name
      generalize lookup "shape" entries >>= ofJson? = type
      cases name <;> cases type <;> simp
    | _ => simp [ofItems?]

end Shape

theorem Extent.ofJson?_eq_none_iff {j : Json} : ofJson? j = none ↔ ¬ j.IsExtent := by
  unfold ofJson? IsExtent tagged
  split
  · simp
  · simp
  · next n =>
    simp [UInt64.size]
  · next hdynamic hnull hfixed =>
    simp
    grind

namespace Shape

theorem ofJson?_of_faulty {j : Json} (h : j.Faulty) : ofJson? j = none := by
  have hrecord {items : List Json} (hitems : ofItems? items = none) :
      ofJson? (.tagged "record" (.arr items)) = none :=
    Option.map_eq_none_iff.mpr hitems
  induction h with
  | tag h =>
    refine ofJson?_other (fun _ => ?_) (fun _ => ?_) (fun _ => ?_) (fun _ => ?_) <;>
      exact h _ (by simp) _
  | name h => exact ofJson?_other (by simpa using h) (by simp) (by simp) (by simp)
  | pointee _ ih => exact Option.map_eq_none_iff.mpr ih
  | sequence h => exact ofJson?_other (by simp) (by simp) (by simpa using h) (by simp)
  | sequenceKey hkey h =>
    rw [ofJson?_sequence]
    obtain rfl | rfl : _ = "elem" ∨ _ = "len" := by simpa using hkey
    · rw [h]
      rfl
    · simp [h]
  | elem helem _ ih => simp [ofJson?_sequence, helem, ih]
  | extent hextent h => simp [ofJson?_sequence, hextent, Extent.ofJson?_eq_none_iff.mpr h]
  | record h => exact ofJson?_other (by simp) (by simp) (by simp) (by simpa using h)
  | field hitem h => exact hrecord (ofItems?_eq_none_iff.mpr ⟨_, hitem, .inl h⟩)
  | fieldKey hitem hkey h =>
    refine hrecord (ofItems?_eq_none_iff.mpr ⟨_, hitem, .inr ⟨_, rfl, ?_⟩⟩)
    obtain rfl | rfl : _ = "name" ∨ _ = "shape" := by simpa using hkey
    · exact .inl (by rw [h]; rfl)
    · exact .inr (by rw [h]; rfl)
  | fieldName hitem hname h =>
    have hfield := text?_eq_none_iff.mpr h
    exact hrecord (ofItems?_eq_none_iff.mpr ⟨_, hitem, .inr ⟨_, rfl, .inl (by simpa [hname])⟩⟩)
  | fieldType hitem htype _ ih =>
    exact hrecord (ofItems?_eq_none_iff.mpr ⟨_, hitem, .inr ⟨_, rfl, .inr (by simpa [htype])⟩⟩)

theorem faulty_of_ofJson? {j : Json} (h : ofJson? j = none) : j.Faulty := by
  induction j using formInduction with
  | named name => cases h
  | optional j ih => exact .pointee (ih (Option.map_eq_none_iff.mp h))
  | sequence entries ih =>
    rw [ofJson?_sequence] at h
    cases helem : lookup "elem" entries with
    | none => exact .sequenceKey (by simp) helem
    | some j =>
      cases hextent : lookup "len" entries with
      | none => exact .sequenceKey (by simp) hextent
      | some k =>
        cases hj : ofJson? j with
        | none => exact .elem helem (ih "elem" j helem hj)
        | some elem =>
          refine .extent hextent (Extent.ofJson?_eq_none_iff.mp ?_)
          simpa [helem, hextent, hj] using h
  | record items ih =>
    obtain ⟨item, hitem, hfault⟩ := ofItems?_eq_none_iff.mp (Option.map_eq_none_iff.mp h)
    obtain hobject | ⟨entries, rfl, hname | htype⟩ := hfault
    · exact .field hitem hobject
    · cases hj : lookup "name" entries with
      | none => exact .fieldKey hitem (by simp) hj
      | some j => exact .fieldName hitem hj (text?_eq_none_iff.mp (by simpa [hj] using hname))
    · cases hj : lookup "shape" entries with
      | none => exact .fieldKey hitem (by simp) hj
      | some j =>
        exact .fieldType hitem hj (ih entries hitem "shape" j hj (by simpa [hj] using htype))
  | other j hnamed hoptional hsequence hrecord =>
    by_cases htag : ∃ tag ∈ ["named", "optional", "sequence", "record"], ∃ content,
        j = .tagged tag content
    · obtain ⟨tag, hmem, content, rfl⟩ := htag
      simp only [List.mem_cons, List.not_mem_nil, or_false] at hmem
      obtain rfl | rfl | rfl | rfl := hmem
      · exact .name fun name heq => hnamed name (heq ▸ rfl)
      · exact absurd rfl (hoptional content)
      · exact .sequence fun entries heq => hsequence entries (heq ▸ rfl)
      · exact .record fun items heq => hrecord items (heq ▸ rfl)
    · exact .tag fun tag hmem content heq => htag ⟨tag, hmem, content, heq⟩

/-- A tree decodes to a shape exactly if it is the tree of the shape but for keys that the format
does not know, so every shape has a tree of its own and comes back from it; and what does not
decode is faulty. -/
theorem toJson_faithful :
    (∀ shape : Shape, ofJson? shape.toJson = some shape) ∧
      (∀ (j : Json) (shape : Shape), ofJson? j = some shape ↔ shape.toJson = j.trimmed) ∧
      (∀ first second : Shape, first.toJson = second.toJson ↔ first = second) ∧
      ∀ j : Json, ofJson? j = none ↔ j.Faulty := by
  have hdecode (j : Json) (shape : Shape) :
      ofJson? j = some shape ↔ shape.toJson = j.trimmed := by
    constructor
    · exact toJson_eq_trimmed
    · intro h
      rw [← ofJson?_trimmed, ← h, ofJson?_toJson]
  refine ⟨ofJson?_toJson, hdecode, fun first second => ⟨fun h => ?_, congrArg toJson⟩,
    fun j => ⟨faulty_of_ofJson?, ofJson?_of_faulty⟩⟩
  have hsame : some first = some second := by rw [← ofJson?_toJson, h, ofJson?_toJson]
  exact Option.some.inj hsame

/-- Keys in another order, keys without a meaning and the long spelling of an extent. -/
example :
    let j : Json := .tagged "sequence" (.obj [("len", .tagged "dynamic" .null), ("size", .int 3),
      ("elem", .tagged "named" (.str ""))])
    ofJson? j = some (.sequence (.named "") .dynamic) ∧
      j.trimmed = .tagged "sequence" (.obj [("elem", .tagged "named" (.str "")),
        ("len", .str "dynamic")]) :=
  ⟨rfl, rfl⟩

end Shape

end Unmarshal
