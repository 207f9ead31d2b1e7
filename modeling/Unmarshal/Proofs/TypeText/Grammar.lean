import Unmarshal.TypeText.Reader

/-!
# Grammar of type expressions

The lexemes of a type expression by rules, and which rule applies by the first lexeme. The rules
know nothing of a reader: what follows a form is a condition of its own.
-/
namespace Unmarshal.TypeText

/-- The words that open another form than a name where a type is awaited. -/
def reservedWords : List String := "struct" :: foreignWords

/-- Decimal digits, any number of zeros in front, that stand for a length. -/
def IsLength (text : String) (length : UInt64) : Prop :=
  (∀ c ∈ text.toList, c.isDigit = true) ∧ Nat.ofDigitChars 10 text.toList 0 = length.toNat

/-- The names of a group behind its first one. -/
def moreNames (names : List String) : List Lexeme :=
  names.flatMap fun name => [.mark ',', .word name]

@[simp] theorem moreNames_nil : moreNames [] = [] := rfl

/-- One field for every name of a group. -/
def groupFields (names : List String) (type : Shape) : List (Field Shape) :=
  names.map fun name => ⟨name, type⟩

mutual

/-- The lexemes of a type. Parentheses leave no trace in the shape. -/
inductive Derives : List Lexeme → Shape → Prop where
  | pointer {ts : List Lexeme} {pointee : Shape} (h : Derives ts pointee) :
      Derives (.mark '*' :: ts) (.optional pointee)
  | slice {ts : List Lexeme} {elem : Shape} (h : Derives ts elem) :
      Derives (.mark '[' :: .mark ']' :: ts) (.sequence elem .dynamic)
  | array {text : String} {length : UInt64} {ts : List Lexeme} {elem : Shape}
      (hl : IsLength text length) (h : Derives ts elem) :
      Derives (.mark '[' :: .number text :: .mark ']' :: ts) (.sequence elem (.fixed length))
  | record {ts : List Lexeme} {fields : List (Field Shape)} (h : DerivesFields ts fields)
      (distinct : (fields.map Field.name).Nodup) :
      Derives (.word "struct" :: .mark '\x7b' :: (ts ++ [.mark '\x7d'])) (.record fields)
  | named {word : String} (hw : word ∉ reservedWords) : Derives [.word word] (.named word)
  | qualified {package member : String} (hp : package ∉ reservedWords) :
      Derives [.word package, .mark '.', .word member] (.named (package ++ "." ++ member))
  | parens {ts : List Lexeme} {shape : Shape} (h : Derives ts shape) :
      Derives (.mark '(' :: (ts ++ [.mark ')'])) shape

/-- The lexemes between the braces of a record: groups with one semicolon or more between two of
them, and any number before the first and behind the last. -/
inductive DerivesFields : List Lexeme → List (Field Shape) → Prop where
  | none : DerivesFields [] []
  | semicolon {ts : List Lexeme} {fields : List (Field Shape)} (h : DerivesFields ts fields) :
      DerivesFields (.mark ';' :: ts) fields
  | last {name : String} {names : List String} {ts : List Lexeme} {type : Shape}
      (h : Derives ts type) :
      DerivesFields (.word name :: (moreNames names ++ ts)) (groupFields (name :: names) type)
  | group {name : String} {names : List String} {ts us : List Lexeme} {type : Shape}
      {fields : List (Field Shape)} (h : Derives ts type) (k : DerivesFields us fields) :
      DerivesFields (.word name :: (moreNames names ++ ts ++ .mark ';' :: us))
        (groupFields (name :: names) type ++ fields)

end

/-! ## What may follow

A form is described by the lexemes it still needs, followed by what `next` asks of its shape and of
the lexemes behind it. -/

section

variable (next : Shape → List Lexeme → Prop)

/-- A whole type. -/
def TypeThen (ts : List Lexeme) : Prop :=
  ∃ us shape vs, ts = us ++ vs ∧ Derives us shape ∧ next shape vs

/-- The extent and the element type of a sequence whose bracket is open. -/
def SequenceThen (ts : List Lexeme) : Prop :=
  (∃ us, ts = .mark ']' :: us ∧ TypeThen (fun elem => next (.sequence elem .dynamic)) us) ∨
    ∃ text length us, ts = .number text :: .mark ']' :: us ∧ IsLength text length ∧
      TypeThen (fun elem => next (.sequence elem (.fixed length))) us

/-- A name that may go on with a dot and a second word. -/
def NameThen (name : String) (ts : List Lexeme) : Prop :=
  next (.named name) ts ∨
    ∃ member us, ts = .mark '.' :: .word member :: us ∧ next (.named (name ++ "." ++ member)) us

/-- Fields that may be added to those of a record: no name is there twice. -/
def Fresh (fields more : List (Field Shape)) : Prop :=
  (more.map Field.name).Nodup ∧ ∀ f ∈ more, f.name ∉ fields.map Field.name

/-- The entries that complete a record with some fields already, and its brace. -/
def EntriesThen (entries : List Lexeme → List (Field Shape) → Prop) (fields : List (Field Shape))
    (ts : List Lexeme) : Prop :=
  ∃ us more vs, ts = us ++ .mark '\x7d' :: vs ∧ entries us more ∧ Fresh fields more ∧
    next (.record (fields ++ more)) vs

/-- What may stand between a group and the brace. -/
def AfterGroup (ts : List Lexeme) (fields : List (Field Shape)) : Prop :=
  (ts = [] ∧ fields = []) ∨ ∃ us, ts = .mark ';' :: us ∧ DerivesFields us fields

/-- The rest of a record behind the type of a group. -/
def GroupThen (fields : List (Field Shape)) (names : List String) (type : Shape)
    (ts : List Lexeme) : Prop :=
  Fresh fields (groupFields names type) ∧
    EntriesThen next AfterGroup (fields ++ groupFields names type) ts

/-- More names of a group, its type, and the rest of the record. -/
def NamesThen (fields : List (Field Shape)) (names : List String) (ts : List Lexeme) : Prop :=
  ∃ more us, ts = moreNames more ++ us ∧ TypeThen (GroupThen next fields (names ++ more)) us

end

/-! ## First lexemes

The first lexeme of what is awaited decides which rule applies. -/

theorem fresh_nil (fields : List (Field Shape)) : Fresh fields [] := by
  simp [Fresh]

theorem fresh_append {fields first second : List (Field Shape)} :
    Fresh fields (first ++ second) ↔ Fresh fields first ∧ Fresh (fields ++ first) second := by
  simp only [Fresh, List.map_append, List.nodup_append, List.mem_append, List.mem_map]
  grind

section

variable {next : Shape → List Lexeme → Prop} {fields : List (Field Shape)}

theorem typeThen_cons {l : Lexeme} {ts : List Lexeme} :
    TypeThen next (l :: ts) ↔
      (l = .mark '*' ∧ TypeThen (fun pointee => next (.optional pointee)) ts) ∨
      (l = .mark '[' ∧ SequenceThen next ts) ∨
      (l = .mark '(' ∧ TypeThen (fun shape us => ∃ vs, us = .mark ')' :: vs ∧ next shape vs) ts) ∨
      (l = .word "struct" ∧ ∃ us, ts = .mark '\x7b' :: us ∧ EntriesThen next DerivesFields [] us) ∨
      ∃ word, l = .word word ∧ word ∉ reservedWords ∧ NameThen next word ts := by
  constructor
  · rintro ⟨us, shape, vs, hts, h, hnext⟩
    cases h with
    | pointer h =>
      cases hts
      exact .inl ⟨rfl, _, _, vs, rfl, h, hnext⟩
    | slice h =>
      cases hts
      exact .inr (.inl ⟨rfl, .inl ⟨_, rfl, _, _, vs, rfl, h, hnext⟩⟩)
    | array hl h =>
      cases hts
      exact .inr (.inl ⟨rfl, .inr ⟨_, _, _, rfl, hl, _, _, vs, rfl, h, hnext⟩⟩)
    | record h distinct =>
      cases hts
      refine .inr (.inr (.inr (.inl ⟨rfl, _, rfl, _, _, vs, ?_, h, ⟨distinct, by simp⟩, hnext⟩)))
      simp
    | named hw =>
      cases hts
      exact .inr (.inr (.inr (.inr ⟨_, rfl, hw, .inl hnext⟩)))
    | qualified hp =>
      cases hts
      exact .inr (.inr (.inr (.inr ⟨_, rfl, hp, .inr ⟨_, vs, rfl, hnext⟩⟩)))
    | parens h =>
      cases hts
      refine .inr (.inr (.inl ⟨rfl, _, _, .mark ')' :: vs, ?_, h, vs, rfl, hnext⟩))
      simp
  · rintro (⟨rfl, h⟩ | ⟨rfl, h⟩ | ⟨rfl, h⟩ | ⟨rfl, us, rfl, h⟩ | ⟨word, rfl, hw, h⟩)
    · obtain ⟨us, pointee, vs, rfl, h, hnext⟩ := h
      exact ⟨_, _, vs, rfl, .pointer h, hnext⟩
    · obtain ⟨_, rfl, us, elem, vs, rfl, h, hnext⟩ |
        ⟨_, _, _, rfl, hl, us, elem, vs, rfl, h, hnext⟩ := h
      · exact ⟨_, _, vs, rfl, .slice h, hnext⟩
      · exact ⟨_, _, vs, rfl, .array hl h, hnext⟩
    · obtain ⟨us, shape, _, rfl, h, vs, rfl, hnext⟩ := h
      exact ⟨_, _, vs, by simp, .parens h, hnext⟩
    · obtain ⟨us, fields, vs, rfl, h, ⟨distinct, -⟩, hnext⟩ := h
      exact ⟨_, _, vs, by simp, .record h distinct, hnext⟩
    · obtain hnext | ⟨member, us, rfl, hnext⟩ := h
      · exact ⟨_, _, ts, rfl, .named hw, hnext⟩
      · exact ⟨_, _, us, rfl, .qualified hw, hnext⟩

theorem not_typeThen_nil : ¬ TypeThen next [] := by
  rintro ⟨us, shape, vs, hts, h, hnext⟩
  cases h <;> cases hts

theorem entriesThen_afterGroup_cons {l : Lexeme} {ts : List Lexeme} :
    EntriesThen next AfterGroup fields (l :: ts) ↔
      (l = .mark '\x7d' ∧ next (.record fields) ts) ∨
      (l = .mark ';' ∧ EntriesThen next DerivesFields fields ts) := by
  constructor
  · rintro ⟨us, more, vs, hts, ⟨rfl, rfl⟩ | ⟨us, rfl, h⟩, fresh, hnext⟩
    · cases hts
      exact .inl ⟨rfl, by simpa using hnext⟩
    · cases hts
      exact .inr ⟨rfl, us, more, vs, rfl, h, fresh, hnext⟩
  · rintro (⟨rfl, hnext⟩ | ⟨rfl, us, more, vs, rfl, h, fresh, hnext⟩)
    · exact ⟨[], [], ts, rfl, .inl ⟨rfl, rfl⟩, fresh_nil fields, by simpa using hnext⟩
    · exact ⟨_, more, vs, rfl, .inr ⟨us, rfl, h⟩, fresh, hnext⟩

theorem entriesThen_cons {l : Lexeme} {ts : List Lexeme} :
    EntriesThen next DerivesFields fields (l :: ts) ↔
      (l = .mark '\x7d' ∧ next (.record fields) ts) ∨
      (l = .mark ';' ∧ EntriesThen next DerivesFields fields ts) ∨
      ∃ name, l = .word name ∧ NamesThen next fields [name] ts := by
  constructor
  · rintro ⟨us, more, vs, hts, h, fresh, hnext⟩
    cases h with
    | none =>
      cases hts
      exact .inl ⟨rfl, by simpa using hnext⟩
    | semicolon h =>
      cases hts
      exact .inr (.inl ⟨rfl, _, more, vs, rfl, h, fresh, hnext⟩)
    | @last name names us type h =>
      cases hts
      refine .inr (.inr ⟨name, rfl, names, us ++ .mark '\x7d' :: vs, by simp, us, type, _, rfl, h,
        fresh, ?_⟩)
      exact ⟨[], [], vs, rfl, .inl ⟨rfl, rfl⟩, fresh_nil _, by simpa using hnext⟩
    | @group name names us os type others h k =>
      cases hts
      obtain ⟨freshGroup, freshOthers⟩ := fresh_append.mp fresh
      refine .inr (.inr ⟨name, rfl, names, us ++ .mark ';' :: os ++ .mark '\x7d' :: vs, by simp,
        us, type, .mark ';' :: os ++ .mark '\x7d' :: vs, by simp, h, freshGroup, ?_⟩)
      exact ⟨_, others, vs, rfl, .inr ⟨os, rfl, k⟩, freshOthers, by simpa using hnext⟩
  · rintro (⟨rfl, hnext⟩ | ⟨rfl, us, more, vs, rfl, h, fresh, hnext⟩ | ⟨name, rfl, h⟩)
    · exact ⟨[], [], ts, rfl, .none, fresh_nil fields, by simpa using hnext⟩
    · exact ⟨_, more, vs, rfl, .semicolon h, fresh, hnext⟩
    · obtain ⟨names, _, rfl, us, type, _, rfl, h, freshGroup, os, others, vs, rfl, hafter,
        freshOthers, hnext⟩ := h
      have fresh := fresh_append.mpr ⟨freshGroup, freshOthers⟩
      rw [List.append_assoc] at hnext
      obtain ⟨rfl, rfl⟩ | ⟨ws, rfl, k⟩ := hafter
      · have hLast : DerivesFields (.word name :: (moreNames names ++ us)) _ := .last h
        exact ⟨_, _, vs, by simp, hLast, by simpa using fresh, by simpa using hnext⟩
      · have hGroup : DerivesFields (.word name :: (moreNames names ++ us ++ .mark ';' :: ws)) _ :=
          .group h k
        exact ⟨_, _, vs, by simp, hGroup, fresh, hnext⟩

theorem namesThen_comma {names : List String} {ts : List Lexeme} :
    NamesThen next fields names (.mark ',' :: ts) ↔
      ∃ name us, ts = .word name :: us ∧ NamesThen next fields (names ++ [name]) us := by
  constructor
  · rintro ⟨more, us, hts, h⟩
    cases more with
    | nil =>
      rw [moreNames, List.flatMap_nil, List.nil_append] at hts
      rw [← hts, typeThen_cons] at h
      simp at h
    | cons name more =>
      cases hts
      exact ⟨name, _, rfl, more, us, rfl, by simpa using h⟩
  · rintro ⟨name, _, rfl, more, us, rfl, h⟩
    exact ⟨name :: more, us, rfl, by simpa using h⟩

theorem namesThen_type {names : List String} {ts : List Lexeme}
    (hts : ts.head? ≠ some (.mark ',')) :
    NamesThen next fields names ts ↔ TypeThen (GroupThen next fields names) ts := by
  constructor
  · rintro ⟨more, us, rfl, h⟩
    cases more with
    | nil => simpa [moreNames] using h
    | cons name more => exact absurd rfl hts
  · intro h
    exact ⟨[], ts, rfl, by simpa using h⟩

end

end Unmarshal.TypeText
