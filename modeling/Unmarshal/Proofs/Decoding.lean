import Mathlib.Data.List.Forall2
import Mathlib.Data.List.Sort
import Mathlib.Data.Option.Basic
import Unmarshal.Manifest.Decode

/-!
# Decoding by a schema

A schema says which trees can be decoded and where a decoder looks. Its forms are put together from
texts, arrays and tables; in a table some keys count, each with a form of its own, and the others do
not. The manifest has one schema, which its decoders read, and what they read is kept.
-/
namespace Unmarshal

/-- A form of values: the trees that have it, and the pairs of trees that are the same wherever it
looks. -/
structure Form where
  Accepts : Json → Prop
  Alike : Json → Json → Prop

/-- A key that counts in a table, with the form of what it holds. -/
structure Slot where
  key : String
  needed : Bool
  form : Form

namespace Slot

def required (key : String) (form : Form) : Slot := ⟨key, true, form⟩

def optional (key : String) (form : Form) : Slot := ⟨key, false, form⟩

/-- The key holds a value of the form, or is missing where it is not needed. -/
def Accepts (slot : Slot) (entries : List (String × Json)) : Prop :=
  match Json.lookup slot.key entries with
  | none => slot.needed = false
  | some j => slot.form.Accepts j

/-- The key is missing in both tables or holds values that are alike. -/
def Alike (slot : Slot) (first second : List (String × Json)) : Prop :=
  Option.Rel slot.form.Alike (Json.lookup slot.key first) (Json.lookup slot.key second)

end Slot

namespace Form

def text : Form := ⟨fun j => ∃ s, j = .str s, Eq⟩

def nullableText : Form := ⟨fun j => j = .null ∨ ∃ s, j = .str s, Eq⟩

/-- A table of texts, in which every key counts. -/
def texts : Form :=
  ⟨fun j => ∃ entries, j = .obj entries ∧ ∀ entry ∈ entries, ∃ s, entry.2 = .str s, Eq⟩

def array (item : Form) : Form where
  Accepts j := ∃ items, j = .arr items ∧ ∀ i ∈ items, item.Accepts i
  Alike j k := j = k ∨
    ∃ first second, j = .arr first ∧ k = .arr second ∧ List.Forall₂ item.Alike first second

/-- A table in which the keys of the slots count. -/
def table (slots : List Slot) : Form where
  Accepts j := ∃ entries, j = .obj entries ∧ ∀ slot ∈ slots, slot.Accepts entries
  Alike j k := j = k ∨
    ∃ first second, j = .obj first ∧ k = .obj second ∧ ∀ slot ∈ slots, slot.Alike first second

end Form

/-! ## The schema of a manifest -/

namespace Manifest

def Package.form : Form := .table [.required "name" .text, .optional "description" .nullableText]

def Naming.form : Form :=
  .table [.optional "args" .nullableText, .optional "runtime" .nullableText,
    .optional "kind-var" .nullableText]

def ParamDecl.form : Form := .table [.optional "name" .text, .required "type" .text]

def FunctionDecl.form : Form :=
  .table [.required "name" .text, .optional "params" (.array ParamDecl.form)]

def form : Form :=
  .table [.required "package" Package.form, .optional "options" Naming.form,
    .optional "types" .texts, .optional "function" (.array FunctionDecl.form)]

end Manifest

/-! ## Decoders of a form -/

section

variable {α β : Type}

/-- The decoder succeeds on the trees of the form and on no others, and looks only where the form
does. -/
structure Form.ReadBy (form : Form) (decode : Json → Option α) : Prop where
  isSome_iff : ∀ j, (decode j).isSome ↔ form.Accepts j
  congr : ∀ j k, form.Alike j k → decode j = decode k

/-- As for a form, for a key of a table. -/
structure Slot.ReadBy (slot : Slot) (decode : List (String × Json) → Option α) : Prop where
  isSome_iff : ∀ entries, (decode entries).isSome ↔ slot.Accepts entries
  congr : ∀ first second, slot.Alike first second → decode first = decode second

/-- As for a form, for the keys of a table that count. -/
structure Slot.AllReadBy (slots : List Slot) (decode : List (String × Json) → Option α) : Prop where
  isSome_iff : ∀ entries, (decode entries).isSome ↔ ∀ slot ∈ slots, slot.Accepts entries
  congr : ∀ first second, (∀ slot ∈ slots, slot.Alike first second) → decode first = decode second

namespace Slot

variable {form : Form} {decode : Json → Option α}

/-- A key is read with its form; what stands for it where it is missing says whether it is needed. -/
theorem readBy_elim (h : form.ReadBy decode) (key : String) {needed : Bool} {missing : Option α}
    (hmissing : missing.isSome ↔ needed = false) :
    (Slot.mk key needed form).ReadBy fun entries =>
      (Json.lookup key entries).elim missing decode where
  isSome_iff entries := by
    unfold Accepts
    cases Json.lookup key entries with
    | none => exact hmissing
    | some j => exact h.isSome_iff j
  congr first second hsame := by
    unfold Alike at hsame
    simp only at hsame
    -- only what is found counts, wherever in the tables it stands
    generalize Json.lookup key first = a at hsame ⊢
    generalize Json.lookup key second = b at hsame ⊢
    cases hsame with
    | none => rfl
    | some hvalues => exact h.congr _ _ hvalues

theorem readBy_required (h : form.ReadBy decode) (key : String) :
    (required key form).ReadBy (Json.required key decode) := by
  have helim : Json.required key decode = fun entries =>
      (Json.lookup key entries).elim none decode := by
    funext entries
    unfold Json.required
    cases Json.lookup key entries <;> rfl
  rw [helim]
  exact readBy_elim h key (by simp)

theorem readBy_optional (h : form.ReadBy decode) (key : String) (default : α) :
    (optional key form).ReadBy (Json.defaulted key default decode) := by
  have helim : Json.defaulted key default decode = fun entries =>
      (Json.lookup key entries).elim (some default) decode := by
    funext entries
    unfold Json.defaulted
    cases Json.lookup key entries <;> rfl
  rw [helim]
  exact readBy_elim h key (by simp)

theorem allReadBy_nil (a : α) : AllReadBy [] fun _ => some a where
  isSome_iff := by simp
  congr _ _ _ := rfl

theorem AllReadBy.cons {slot : Slot} {slots : List Slot} {first : List (String × Json) → Option α}
    {rest : α → List (String × Json) → Option β} (hfirst : slot.ReadBy first)
    (hrest : ∀ a, AllReadBy slots (rest a)) :
    AllReadBy (slot :: slots) fun entries => first entries >>= fun a => rest a entries where
  isSome_iff entries := by
    rw [List.forall_mem_cons, ← hfirst.isSome_iff]
    cases first entries with
    | none => simp
    | some a => simpa using (hrest a).isSome_iff entries
  congr one other hsame := by
    obtain ⟨hslot, hslots⟩ := List.forall_mem_cons.mp hsame
    rw [hfirst.congr one other hslot]
    exact congrArg _ (funext fun a => (hrest a).congr one other hslots)

end Slot

/-- A list is decoded item by item. -/
theorem mapM_eq_some_iff {γ : Type} {decode : γ → Option α} {items : List γ} {values : List α} :
    items.mapM decode = some values ↔
      List.Forall₂ (fun item value => decode item = some value) items values := by
  induction items generalizing values with
  | nil => simp [eq_comm]
  | cons item items ih =>
    rw [List.mapM_cons, List.forall₂_cons_left_iff]
    simp only [Option.bind_eq_bind, Option.bind_eq_some_iff, ih]
    constructor
    · rintro ⟨value, hvalue, rest, hrest, hvalues⟩
      exact ⟨value, rest, hvalue, hrest, (Option.some.inj hvalues).symm⟩
    · rintro ⟨value, rest, hvalue, hrest, rfl⟩
      exact ⟨value, hvalue, rest, hrest, rfl⟩

theorem isSome_mapM_iff {γ : Type} {decode : γ → Option α} {items : List γ} :
    (items.mapM decode).isSome ↔ ∀ item ∈ items, (decode item).isSome := by
  induction items with
  | nil => simp
  | cons item items ih =>
    rw [List.mapM_cons, List.forall_mem_cons, ← ih]
    cases decode item with
    | none => simp
    | some value => cases items.mapM decode <;> simp

namespace Form

theorem readBy_text : text.ReadBy Json.text? where
  isSome_iff j := by cases j <;> simp [text, Json.text?]
  congr _ _ := congrArg _

theorem readBy_nullableText : nullableText.ReadBy Json.nullableText? where
  isSome_iff j := by cases j <;> simp [nullableText, Json.nullableText?]
  congr _ _ := congrArg _

theorem readBy_table {slots : List Slot} {decode : List (String × Json) → Option α}
    (h : Slot.AllReadBy slots decode) :
    (table slots).ReadBy fun j => j.entries? >>= decode where
  isSome_iff j := by
    cases j with
    | obj entries => simpa [table, Json.entries?] using h.isSome_iff entries
    | _ => simp [table, Json.entries?]
  congr j k hsame := by
    rcases hsame with rfl | ⟨first, second, rfl, rfl, hslots⟩
    · rfl
    · exact h.congr first second hslots

theorem readBy_array {item : Form} {decode : Json → Option α} (h : item.ReadBy decode) :
    (array item).ReadBy fun j => j.items? >>= fun items => items.mapM decode where
  isSome_iff j := by
    cases j with
    | arr items =>
      have hitems : (items.mapM decode).isSome ↔ ∀ i ∈ items, (decode i).isSome :=
        isSome_mapM_iff
      simp only [h.isSome_iff] at hitems
      simpa [array, Json.items?] using hitems
    | _ => simp [array, Json.items?]
  congr j k hsame := by
    rcases hsame with rfl | ⟨first, second, rfl, rfl, hitems⟩
    · rfl
    · show first.mapM decode = second.mapM decode
      induction hitems with
      | nil => rfl
      | cons hitem _ ih => rw [List.mapM_cons, List.mapM_cons, h.congr _ _ hitem, ih]

end Form

namespace Manifest

/-- The entries of a table of texts are those texts. -/
theorem mapM_text?_eq_some_iff {entries : List (String × Json)} {texts : List (String × String)} :
    (entries.mapM fun entry => do some (entry.1, ← entry.2.text?)) = some texts ↔
      entries = texts.map fun entry => (entry.1, .str entry.2) := by
  have hentry (entry : String × Json) (named : String × String) :
      (do some (entry.1, ← entry.2.text?)) = some named ↔ entry = (named.1, .str named.2) := by
    obtain ⟨key, j⟩ := entry
    obtain ⟨name, s⟩ := named
    cases j <;> simp [Json.text?]
  simp only [mapM_eq_some_iff, hentry]
  rw [← List.forall₂_map_right_iff (R := Eq), List.forall₂_eq_eq_eq]

theorem readBy_types : Form.texts.ReadBy typesOfJson? where
  isSome_iff j := by
    cases j with
    | obj entries =>
      have hentry (entry : String × Json) :
          (do some (entry.1, ← entry.2.text?) : Option (String × String)).isSome ↔
            ∃ s, entry.2 = .str s := by
        cases entry.2 <;> simp [Json.text?]
      have hentries : (entries.mapM fun entry => do
          some (entry.1, ← entry.2.text?) : Option (List (String × String))).isSome ↔
            ∀ entry ∈ entries, ∃ s, entry.2 = .str s := by
        rw [isSome_mapM_iff]
        simp only [hentry]
      -- sorting the texts has no part in it
      have hsorted : (typesOfJson? (.obj entries)).isSome = (entries.mapM fun entry => do
          some (entry.1, ← entry.2.text?) : Option (List (String × String))).isSome := by
        unfold typesOfJson?
        simp only [Json.entries?, Option.bind_eq_bind, Option.bind_some, Option.isSome_bind]
        cases entries.mapM fun entry => entry.2.text?.bind fun s => some (entry.1, s) <;> rfl
      rw [hsorted, hentries]
      simp [Form.texts]
    | _ => simp [Form.texts, typesOfJson?, Json.entries?]
  congr _ _ := congrArg _

theorem Package.readBy : Package.form.ReadBy Package.ofJson? := by
  apply Form.readBy_table
  apply Slot.AllReadBy.cons (Slot.readBy_required Form.readBy_text "name")
  intro name
  apply Slot.AllReadBy.cons (Slot.readBy_optional Form.readBy_nullableText "description" none)
  intro description
  exact Slot.allReadBy_nil (Package.mk name description)

theorem Naming.readBy : Naming.form.ReadBy Naming.ofJson? := by
  apply Form.readBy_table
  apply Slot.AllReadBy.cons (Slot.readBy_optional Form.readBy_nullableText "args" none)
  intro args
  apply Slot.AllReadBy.cons (Slot.readBy_optional Form.readBy_nullableText "runtime" none)
  intro runtime
  apply Slot.AllReadBy.cons (Slot.readBy_optional Form.readBy_nullableText "kind-var" none)
  intro kindVar
  exact Slot.allReadBy_nil (Naming.mk args runtime kindVar)

theorem ParamDecl.readBy : ParamDecl.form.ReadBy ParamDecl.ofJson? := by
  apply Form.readBy_table
  apply Slot.AllReadBy.cons (Slot.readBy_optional Form.readBy_text "name" "")
  intro name
  apply Slot.AllReadBy.cons (Slot.readBy_required Form.readBy_text "type")
  intro type
  exact Slot.allReadBy_nil (ParamDecl.mk name type)

theorem FunctionDecl.readBy : FunctionDecl.form.ReadBy FunctionDecl.ofJson? := by
  apply Form.readBy_table
  apply Slot.AllReadBy.cons (Slot.readBy_required Form.readBy_text "name")
  intro name
  apply Slot.AllReadBy.cons
    (Slot.readBy_optional (Form.readBy_array ParamDecl.readBy) "params" [])
  intro params
  exact Slot.allReadBy_nil (FunctionDecl.mk name params)

theorem readBy : form.ReadBy ofJson? := by
  apply Form.readBy_table
  apply Slot.AllReadBy.cons (Slot.readBy_required Package.readBy "package")
  intro package
  apply Slot.AllReadBy.cons (Slot.readBy_optional Naming.readBy "options" {})
  intro naming
  apply Slot.AllReadBy.cons (Slot.readBy_optional readBy_types "types" [])
  intro types
  apply Slot.AllReadBy.cons
    (Slot.readBy_optional (Form.readBy_array FunctionDecl.readBy) "function" [])
  intro functions
  exact Slot.allReadBy_nil (Manifest.mk package naming types functions)

end Manifest

end

/-! ## What is kept -/

namespace Json

/-- What a tree holds at the end of a path of keys. -/
def at? : List String → Json → Option Json
  | [], j => some j
  | key :: path, .obj entries => lookup key entries >>= at? path
  | _ :: _, _ => none

/-- The text at the end of a path. -/
def textAt? (path : List String) (j : Json) : Option String := j.at? path >>= text?

/-- The items of the array under a key, if there is one. -/
def itemsAt (key : String) (j : Json) : List Json := (j.at? [key] >>= items?).getD []

/-- The entries of the table under a key, if there is one. -/
def entriesAt (key : String) (j : Json) : List (String × Json) := (j.at? [key] >>= entries?).getD []

theorem entries?_eq_some_iff {j : Json} {entries : List (String × Json)} :
    j.entries? = some entries ↔ j = .obj entries := by
  cases j <;> simp [entries?]

section

variable {key : String} {entries : List (String × Json)}

theorem at?_single : (Json.obj entries).at? [key] = lookup key entries := by
  unfold at?
  cases lookup key entries <;> rfl

theorem textAt?_single : (Json.obj entries).textAt? [key] = required key text? entries := by
  rw [textAt?, at?_single, required]

theorem textAt?_cons {path : List String} {j : Json} (h : lookup key entries = some j) :
    (Json.obj entries).textAt? (key :: path) = j.textAt? path := by
  rw [textAt?, at?, h]
  rfl

theorem textAt?_missing {path : List String} (h : lookup key entries = none) :
    (Json.obj entries).textAt? (key :: path) = none := by
  rw [textAt?, at?, h]
  rfl

theorem defaulted_eq_some_iff {α : Type} {default a : α} {decode : Json → Option α} :
    defaulted key default decode entries = some a ↔
      (lookup key entries = none ∧ default = a) ∨
        ∃ j, lookup key entries = some j ∧ decode j = some a := by
  unfold defaulted
  cases lookup key entries <;> simp

theorem textAt?_of_nullable {text : Option String}
    (h : defaulted key none nullableText? entries = some text) :
    (Json.obj entries).textAt? [key] = text := by
  rcases defaulted_eq_some_iff.mp h with ⟨hmissing, rfl⟩ | ⟨j, hj, hdecode⟩
  · exact textAt?_missing hmissing
  · rw [textAt?_cons hj]
    cases j <;> simp_all [nullableText?, textAt?, at?, text?]

theorem textAt?_of_defaulted {default text : String}
    (h : defaulted key default text? entries = some text) :
    ((Json.obj entries).textAt? [key]).getD default = text := by
  rcases defaulted_eq_some_iff.mp h with ⟨hmissing, rfl⟩ | ⟨j, hj, hdecode⟩
  · rw [textAt?_missing hmissing, Option.getD_none]
  · rw [textAt?_cons hj]
    show (text? j).getD default = text
    rw [hdecode, Option.getD_some]

theorem forall₂_of_defaulted {α : Type} {decode : Json → Option α} {values : List α}
    (h : defaulted key [] (fun j => do (← j.items?).mapM decode) entries = some values) :
    List.Forall₂ (fun item value => decode item = some value)
      ((Json.obj entries).itemsAt key) values := by
  unfold itemsAt
  rw [at?_single]
  rcases defaulted_eq_some_iff.mp h with ⟨hmissing, rfl⟩ | ⟨j, hj, hdecode⟩
  · rw [hmissing]
    exact .nil
  · obtain ⟨items, hitems, hvalues⟩ := Option.bind_eq_some_iff.mp hdecode
    rw [hj, Option.bind_eq_bind, Option.bind_some, hitems, Option.getD_some]
    exact mapM_eq_some_iff.mp hvalues

end

end Json

namespace Manifest

structure ParamDecl.Keeps (j : Json) (param : ParamDecl) : Prop where
  name : (j.textAt? ["name"]).getD "" = param.name
  type : j.textAt? ["type"] = some param.type

structure FunctionDecl.Keeps (j : Json) (function : FunctionDecl) : Prop where
  name : j.textAt? ["name"] = some function.name
  params : List.Forall₂ ParamDecl.Keeps (j.itemsAt "params") function.params

/-- The manifest has all that the tree says under the keys that count. -/
structure Keeps (j : Json) (manifest : Manifest) : Prop where
  name : j.textAt? ["package", "name"] = some manifest.package.name
  description : j.textAt? ["package", "description"] = manifest.package.description
  args : j.textAt? ["options", "args"] = manifest.naming.args
  runtime : j.textAt? ["options", "runtime"] = manifest.naming.runtime
  kindVar : j.textAt? ["options", "kind-var"] = manifest.naming.kindVar
  types : (manifest.types.map fun entry => (entry.1, Json.str entry.2)).Perm (j.entriesAt "types")
  ordered : manifest.types.Pairwise fun first second => first.1 ≤ second.1
  functions : List.Forall₂ FunctionDecl.Keeps (j.itemsAt "function") manifest.functions

theorem ParamDecl.keeps {j : Json} {param : ParamDecl} (h : ofJson? j = some param) :
    Keeps j param := by
  obtain ⟨entries, hentries, h⟩ := Option.bind_eq_some_iff.mp h
  obtain rfl := Json.entries?_eq_some_iff.mp hentries
  obtain ⟨name, hname, h⟩ := Option.bind_eq_some_iff.mp h
  obtain ⟨type, htype, h⟩ := Option.bind_eq_some_iff.mp h
  cases h
  exact ⟨Json.textAt?_of_defaulted hname, Json.textAt?_single.trans htype⟩

theorem FunctionDecl.keeps {j : Json} {function : FunctionDecl} (h : ofJson? j = some function) :
    Keeps j function := by
  obtain ⟨entries, hentries, h⟩ := Option.bind_eq_some_iff.mp h
  obtain rfl := Json.entries?_eq_some_iff.mp hentries
  obtain ⟨name, hname, h⟩ := Option.bind_eq_some_iff.mp h
  obtain ⟨params, hparams, h⟩ := Option.bind_eq_some_iff.mp h
  cases h
  exact ⟨Json.textAt?_single.trans hname,
    (Json.forall₂_of_defaulted hparams).imp fun _ _ => ParamDecl.keeps⟩

theorem Package.texts_kept {j : Json} {package : Package} (h : ofJson? j = some package) :
    j.textAt? ["name"] = some package.name ∧ j.textAt? ["description"] = package.description := by
  obtain ⟨entries, hentries, h⟩ := Option.bind_eq_some_iff.mp h
  obtain rfl := Json.entries?_eq_some_iff.mp hentries
  obtain ⟨name, hname, h⟩ := Option.bind_eq_some_iff.mp h
  obtain ⟨description, hdescription, h⟩ := Option.bind_eq_some_iff.mp h
  cases h
  exact ⟨Json.textAt?_single.trans hname, Json.textAt?_of_nullable hdescription⟩

theorem Naming.texts_kept {j : Json} {naming : Naming} (h : ofJson? j = some naming) :
    j.textAt? ["args"] = naming.args ∧ j.textAt? ["runtime"] = naming.runtime ∧
      j.textAt? ["kind-var"] = naming.kindVar := by
  obtain ⟨entries, hentries, h⟩ := Option.bind_eq_some_iff.mp h
  obtain rfl := Json.entries?_eq_some_iff.mp hentries
  obtain ⟨args, hargs, h⟩ := Option.bind_eq_some_iff.mp h
  obtain ⟨runtime, hruntime, h⟩ := Option.bind_eq_some_iff.mp h
  obtain ⟨kindVar, hkindVar, h⟩ := Option.bind_eq_some_iff.mp h
  cases h
  exact ⟨Json.textAt?_of_nullable hargs, Json.textAt?_of_nullable hruntime,
    Json.textAt?_of_nullable hkindVar⟩

/-- The aliases are the entries of their table, in the order of their names. -/
theorem types_kept {j : Json} {types : List (String × String)} (h : typesOfJson? j = some types) :
    ∃ entries, j = .obj entries ∧
      (types.map fun entry => (entry.1, Json.str entry.2)).Perm entries ∧
      types.Pairwise fun first second => first.1 ≤ second.1 := by
  obtain ⟨entries, hentries, h⟩ := Option.bind_eq_some_iff.mp h
  obtain ⟨texts, htexts, h⟩ := Option.bind_eq_some_iff.mp h
  cases h
  obtain rfl := mapM_text?_eq_some_iff.mp htexts
  exact ⟨_, Json.entries?_eq_some_iff.mp hentries, (List.mergeSort_perm _ _).map _,
    List.pairwise_mergeSort' (fun first second : String × String => first.1 ≤ second.1) texts⟩

theorem keeps {j : Json} {manifest : Manifest} (h : ofJson? j = some manifest) :
    Keeps j manifest := by
  obtain ⟨entries, hentries, h⟩ := Option.bind_eq_some_iff.mp h
  obtain rfl := Json.entries?_eq_some_iff.mp hentries
  obtain ⟨package, hpackage, h⟩ := Option.bind_eq_some_iff.mp h
  obtain ⟨naming, hnaming, h⟩ := Option.bind_eq_some_iff.mp h
  obtain ⟨types, htypes, h⟩ := Option.bind_eq_some_iff.mp h
  obtain ⟨functions, hfunctions, h⟩ := Option.bind_eq_some_iff.mp h
  cases h
  obtain ⟨p, hp, hpackage⟩ := Option.bind_eq_some_iff.mp hpackage
  obtain ⟨hname, hdescription⟩ := Package.texts_kept hpackage
  have hoptions : (Json.obj entries).textAt? ["options", "args"] = naming.args ∧
      (Json.obj entries).textAt? ["options", "runtime"] = naming.runtime ∧
      (Json.obj entries).textAt? ["options", "kind-var"] = naming.kindVar := by
    rcases Json.defaulted_eq_some_iff.mp hnaming with ⟨hmissing, rfl⟩ | ⟨o, ho, hnaming⟩
    · exact ⟨Json.textAt?_missing hmissing, Json.textAt?_missing hmissing,
        Json.textAt?_missing hmissing⟩
    · rw [Json.textAt?_cons ho, Json.textAt?_cons ho, Json.textAt?_cons ho]
      exact Naming.texts_kept hnaming
  have haliases : (types.map fun entry => (entry.1, Json.str entry.2)).Perm
        ((Json.obj entries).entriesAt "types") ∧
      types.Pairwise fun first second => first.1 ≤ second.1 := by
    unfold Json.entriesAt
    rw [Json.at?_single]
    rcases Json.defaulted_eq_some_iff.mp htypes with ⟨hmissing, rfl⟩ | ⟨t, ht, htypes⟩
    · rw [hmissing]
      exact ⟨.nil, .nil⟩
    · obtain ⟨aliases, rfl, hkept⟩ := types_kept htypes
      rw [ht]
      exact hkept
  refine ⟨?_, ?_, hoptions.1, hoptions.2.1, hoptions.2.2, haliases.1, haliases.2, ?_⟩
  · rw [Json.textAt?_cons hp, hname]
  · rw [Json.textAt?_cons hp, hdescription]
  · exact (Json.forall₂_of_defaulted hfunctions).imp fun _ _ => FunctionDecl.keeps

/-- A tree is a manifest exactly if it fits the schema, and then the manifest has all that the tree
says under the keys that count: every alias once, by name, and the functions and their parameters in
their order. What the tree holds under any other key, at any level, makes no difference, to whether
it is a manifest or to which one it is. -/
theorem decoding_follows_schema (j : Json) :
    ((∃ manifest, ofJson? j = some manifest) ↔ form.Accepts j) ∧
      (∀ k, form.Alike j k → ofJson? k = ofJson? j) ∧
      ∀ manifest, ofJson? j = some manifest → Keeps j manifest := by
  refine ⟨?_, ?_, ?_⟩
  · rw [← readBy.isSome_iff, Option.isSome_iff_exists]
  · intro k hsame
    exact (readBy.congr j k hsame).symm
  · intro manifest
    exact keeps

/-- A manifest with a key that the schema does not know at every level. -/
def annotated : Json :=
  .obj [("edition", .int 2), ("package", .obj [("name", .str "p"), ("authors", .arr [])]),
    ("options", .obj [("kind_var", .int 0), ("kind-var", .str "kind")]),
    ("function", .arr [.obj [("name", .str "F"), ("doc", .null),
      ("params", .arr [.obj [("type", .str "int"), ("Name", .bool true)]])]])]

/-- The same manifest without them. -/
def plain : Json :=
  .obj [("package", .obj [("name", .str "p")]), ("options", .obj [("kind-var", .str "kind")]),
    ("function", .arr [.obj [("name", .str "F"), ("params", .arr [.obj [("type", .str "int")]])]])]

theorem decoding_follows_schema_annotated :
    form.Alike plain annotated ∧ form.Accepts plain ∧ ofJson? annotated =
      some ⟨⟨"p", none⟩, ⟨none, none, some "kind"⟩, [], [⟨"F", [⟨"", "int"⟩]⟩]⟩ := by
  obtain ⟨haccepts, halike, -⟩ := decoding_follows_schema plain
  have hsame : form.Alike plain annotated := by
    simp [form, Package.form, Naming.form, FunctionDecl.form, ParamDecl.form, Form.table,
      Form.array, Form.text, Form.nullableText, Form.texts, Slot.required, Slot.optional,
      Slot.Alike, Json.lookup, plain, annotated]
  exact ⟨hsame, haccepts.mp ⟨_, rfl⟩, (halike _ hsame).trans rfl⟩

/-- Null does not stand for an absent list of parameters. -/
example : FunctionDecl.ofJson? (.obj [("name", .str "F"), ("params", .null)]) = none := rfl

end Manifest

end Unmarshal
