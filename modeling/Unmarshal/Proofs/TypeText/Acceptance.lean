import Unmarshal.Proofs.TypeText.Grammar

/-!
# Accepted texts

A reader between two lexemes is described by the lexemes that would complete it. Taking a lexeme
keeps the description, so a whole reading accepts what the rules of the grammar derive, and no two
shapes are derived from the same lexemes.
-/
namespace Unmarshal.TypeText

section

variable (goal : Shape)

/-- Behind a complete type: what fills the forms that wait for it, up to the goal. -/
def Closes : List Frame → Shape → List Lexeme → Prop
  | [], shape, ts => ts = [] ∧ shape = goal
  | .pointer :: frames, shape, ts => Closes frames (.optional shape) ts
  | .elements extent :: frames, shape, ts => Closes frames (.sequence shape extent) ts
  | .parens :: frames, shape, ts => ∃ us, ts = .mark ')' :: us ∧ Closes frames shape us
  | .group fields names :: frames, shape, ts =>
    GroupThen (Closes frames) fields (names.map Prod.fst) shape ts

/-- The lexemes that complete a reader to the goal, by what it awaits. -/
def Awaiting.Completes (frames : List Frame) (ts : List Lexeme) : Awaiting → Prop
  | .type => TypeThen (Closes goal frames) ts
  | .member name _ =>
    ∃ member us, ts = .word member :: us ∧ Closes goal frames (.named (name ++ "." ++ member)) us
  | .extent _ => SequenceThen (Closes goal frames) ts
  | .closingBracket length =>
    ∃ us, ts = .mark ']' :: us ∧ TypeThen (Closes goal (.elements (.fixed length) :: frames)) us
  | .openingBrace =>
    ∃ us, ts = .mark '\x7b' :: us ∧ EntriesThen (Closes goal frames) DerivesFields [] us
  | .entry fields => EntriesThen (Closes goal frames) DerivesFields fields ts
  | .nextName fields names =>
    ∃ name us, ts = .word name :: us ∧
      NamesThen (Closes goal frames) fields (names.map Prod.fst ++ [name]) us
  | .commaOrType fields names => NamesThen (Closes goal frames) fields (names.map Prod.fst) ts
  | .groupEnd fields => EntriesThen (Closes goal frames) AfterGroup fields ts
  | .closingParen shape => ∃ us, ts = .mark ')' :: us ∧ Closes goal frames shape us
  | .nothing shape => ts = [] ∧ shape = goal

def State.Completes (ts : List Lexeme) : State → Prop
  | .at awaiting frames => awaiting.Completes goal frames ts
  | .afterName name _ frames => NameThen (Closes goal frames) name ts

end

/-! ## Steps -/

theorem length?_eq_some_iff {text : String} {length : UInt64} :
    length? text = some length ↔ IsLength text length := by
  have hvalue : Nat.ofDigitChars 10 text.toList 0 =
      text.toList.foldl (fun n d => 10 * n + (d.toNat - 48)) 0 := rfl
  simp only [length?, IsLength, hvalue, List.all_eq_true]
  generalize text.toList.foldl (fun n d => 10 * n + (d.toNat - 48)) 0 = value
  by_cases hd : ∀ c ∈ text.toList, c.isDigit = true
  · rw [if_pos hd]
    by_cases hv : value < UInt64.size
    · rw [if_pos hv, Option.some.injEq, ← UInt64.toNat_inj, UInt64.toNat_ofNat_of_lt' hv]
      exact ⟨fun h => ⟨hd, h⟩, And.right⟩
    · have := length.toNat_lt_size
      rw [if_neg hv]
      constructor
      · intro h
        cases h
      · intro h
        omega
  · rw [if_neg hd]
    constructor
    · intro h
      cases h
    · intro h
      exact absurd h.1 hd

theorem addGroup_eq_ok_iff {fields added : List (Field Shape)} {names : List (String × Text.Span)}
    {type : Shape} :
    addGroup fields names type = .ok added ↔
      Fresh fields (groupFields (names.map Prod.fst) type) ∧
        added = fields ++ groupFields (names.map Prod.fst) type := by
  induction names generalizing fields with
  | nil => simp [addGroup, groupFields, fresh_nil, eq_comm]
  | cons name names ih =>
    have hone : Fresh fields [⟨name.1, type⟩] ↔
        ¬ (fields.any fun f => f.name == name.1) = true := by
      simp [Fresh]
    have hsplit : groupFields ((name :: names).map Prod.fst) type =
        [⟨name.1, type⟩] ++ groupFields (names.map Prod.fst) type := rfl
    rw [addGroup, hsplit, fresh_append, hone]
    split
    · next h => simp [h]
    · next h => simp [h, ih]

section

variable (goal : Shape) (ts : List Lexeme)

/-- A reading that goes on from a state which the lexemes complete. -/
def Leads : Except ReadError State → Prop
  | .ok state => state.Completes goal ts
  | .error _ => False

/-- A step that takes its lexeme and goes on from such a state. -/
def LeadsOn : Except ReadError Progress → Prop
  | .ok (.taken state) => state.Completes goal ts
  | .ok (.complete _) => False
  | .error _ => False

@[simp] theorem leads_ok (state : State) :
    Leads goal ts (.ok state) ↔ state.Completes goal ts :=
  Iff.rfl

@[simp] theorem not_leads_error (e : ReadError) : ¬ Leads goal ts (.error e) := id

@[simp] theorem leadsOn_taken (state : State) :
    LeadsOn goal ts (.ok (.taken state)) ↔ state.Completes goal ts :=
  Iff.rfl

@[simp] theorem not_leadsOn_complete (shape : Shape) : ¬ LeadsOn goal ts (.ok (.complete shape)) :=
  id

@[simp] theorem not_leadsOn_error (e : ReadError) : ¬ LeadsOn goal ts (.error e) := id

@[simp] theorem leadsOn_map (result : Except ReadError State) :
    LeadsOn goal ts (result.map .taken) ↔ Leads goal ts result := by
  cases result <;> rfl

end

section

variable {goal : Shape} {frames : List Frame} {shape : Shape} {ts : List Lexeme}

theorem closes_iff : Closes goal frames shape ts ↔ Leads goal ts (closed shape frames) := by
  induction frames generalizing shape with
  | nil => rfl
  | cons frame frames ih =>
    cases frame with
    | pointer => exact ih
    | elements extent => exact ih
    | parens => rfl
    | group fields names =>
      simp only [Closes, GroupThen, closed, close]
      cases h : addGroup fields names shape with
      | ok added =>
        obtain ⟨fresh, rfl⟩ := addGroup_eq_ok_iff.mp h
        simp [fresh, State.Completes, Awaiting.Completes]
      | error e =>
        have clash : ¬ Fresh fields (groupFields (names.map Prod.fst) shape) := by
          intro fresh
          rw [addGroup_eq_ok_iff.mpr ⟨fresh, rfl⟩] at h
          cases h
        simp [clash]

theorem not_closes_dot : ¬ Closes goal frames shape (.mark '.' :: ts) := by
  induction frames generalizing shape with
  | nil => simp [Closes]
  | cons frame frames ih =>
    cases frame with
    | pointer => exact ih
    | elements extent => exact ih
    | parens => simp [Closes]
    | group fields names => simp [Closes, GroupThen, entriesThen_afterGroup_cons]

theorem openType_iff {token : Token} :
    TypeThen (Closes goal frames) (token.lexeme :: ts) ↔ Leads goal ts (openType frames token) := by
  rw [typeThen_cons, openType]
  split
  · next h => simp [h, State.Completes, Awaiting.Completes, Closes]
  · next h => simp [h, State.Completes, Awaiting.Completes]
  · next h => simp [h, State.Completes, Awaiting.Completes, Closes]
  · next word h =>
    simp only [h]
    by_cases hs : word = "struct"
    · simp [hs, State.Completes, Awaiting.Completes, reservedWords]
    · by_cases hf : word ∈ foreignWords
      · simp [hs, hf, reservedWords]
      · simp [hs, hf, reservedWords, State.Completes]
  · next h1 h2 h3 h4 => simp_all

theorem openSequence_iff {bracket : Text.Span} {token : Token} :
    SequenceThen (Closes goal frames) (token.lexeme :: ts) ↔
      Leads goal ts (openSequence bracket frames token) := by
  rw [SequenceThen, openSequence]
  split
  · next h => simp [h, State.Completes, Awaiting.Completes, Closes]
  · next text h =>
    rw [h]
    constructor
    · rintro (⟨us, hts, -⟩ | ⟨text, length, us, hts, hl, htype⟩)
      · cases hts
      · cases hts
        rw [length?_eq_some_iff.mpr hl]
        exact ⟨us, rfl, htype⟩
    · cases hl : length? text with
      | some length =>
        rintro ⟨us, rfl, htype⟩
        exact .inr ⟨text, length, us, rfl, length?_eq_some_iff.mp hl, htype⟩
      | none => exact False.elim
  · next h => simp_all

theorem take_iff {awaiting : Awaiting} {token : Token} :
    awaiting.Completes goal frames (token.lexeme :: ts) ↔
      LeadsOn goal ts (take awaiting frames token) := by
  cases awaiting with
  | type => rw [take, leadsOn_map, ← openType_iff]; rfl
  | member name span =>
    simp only [Awaiting.Completes, take]
    split
    · next member h => simp [h, closes_iff, and_assoc]
    · next h => simp_all
  | extent bracket => rw [take, leadsOn_map, ← openSequence_iff]; rfl
  | closingBracket length =>
    simp only [Awaiting.Completes, take]
    split
    · next h => simp [h, State.Completes, Awaiting.Completes]
    · next h => simp_all
  | openingBrace =>
    simp only [Awaiting.Completes, take]
    split
    · next h => simp [h, State.Completes, Awaiting.Completes]
    · next h => simp_all
  | entry fields =>
    simp only [Awaiting.Completes, take, entriesThen_cons]
    split
    · next h => simp [h, closes_iff]
    · next h => simp [h, State.Completes, Awaiting.Completes]
    · next name h => simp [h, State.Completes, Awaiting.Completes]
    · next h1 h2 h3 => simp_all
  | nextName fields names =>
    simp only [Awaiting.Completes, take]
    split
    · next name h => simp [h, and_assoc, State.Completes, Awaiting.Completes]
    · next h => simp_all
  | commaOrType fields names =>
    simp only [Awaiting.Completes, take]
    split
    · next h => simp [h, namesThen_comma, State.Completes, Awaiting.Completes]
    · next h =>
      rw [namesThen_type (by simpa using h), leadsOn_map, ← openType_iff]
      rfl
  | groupEnd fields =>
    simp only [Awaiting.Completes, take, entriesThen_afterGroup_cons]
    split
    · next h => simp [h, State.Completes, Awaiting.Completes]
    · next h => simp [h, closes_iff]
    · next h1 h2 => simp_all
  | closingParen shape =>
    simp only [Awaiting.Completes, take]
    split
    · next h => simp [h, closes_iff]
    · next h => simp_all
  | nothing shape => simp [Awaiting.Completes, take, LeadsOn]

theorem step_iff {state : State} {token : Token} :
    state.Completes goal (token.lexeme :: ts) ↔ LeadsOn goal ts (state.step token) := by
  cases state with
  | «at» awaiting frames => exact take_iff
  | afterName name span frames =>
    simp only [State.Completes, NameThen, State.step]
    split
    · next h => simp [h, not_closes_dot, State.Completes, Awaiting.Completes]
    · next h =>
      rw [closes_iff, closed]
      cases hc : close (.named name) frames with
      | ok result => simp [h, ← take_iff, State.Completes]
      | error e => simp [h, LeadsOn]

theorem finish_iff {stop : Nat} {state : State} :
    state.Completes goal [] ↔ state.finish stop = .ok goal := by
  have hat : ∀ awaiting frames, Awaiting.Completes goal frames [] awaiting ↔
      finish stop awaiting = .ok goal := by
    intro awaiting frames
    cases awaiting with
    | nothing shape => simp [Awaiting.Completes, finish]
    | _ =>
      simp [Awaiting.Completes, finish, finish.missing, not_typeThen_nil, SequenceThen, EntriesThen,
        NamesThen, moreNames]
  cases state with
  | «at» awaiting frames => exact hat awaiting frames
  | afterName name span frames =>
    simp only [State.Completes, NameThen, State.finish]
    rw [closes_iff, closed]
    cases hc : close (.named name) frames with
    | ok result => simp [State.Completes, hat]
    | error e => simp

/-- What a reader accepts is what completes it. -/
theorem run_eq_ok_iff {stop : Nat} {state : State} {tokens : List Token} :
    run stop state tokens = .ok (goal, []) ↔ state.Completes goal (tokens.map Token.lexeme) := by
  induction tokens generalizing state with
  | nil =>
    rw [run, List.map_nil, finish_iff]
    cases state.finish stop <;> simp [Except.map]
  | cons token tokens ih =>
    rw [run, List.map_cons, step_iff]
    cases h : state.step token with
    | ok progress =>
      cases progress with
      | taken state => simpa [LeadsOn] using ih
      | complete shape => simp [LeadsOn]
    | error e => simp [LeadsOn]
end

theorem completes_start {ts : List Lexeme} {shape : Shape} :
    State.start.Completes shape ts ↔ Derives ts shape := by
  constructor
  · rintro ⟨us, shape, vs, rfl, h, rfl, rfl⟩
    simpa using h
  · intro h
    exact ⟨ts, shape, [], by simp, h, rfl, rfl⟩

theorem run_start_iff (stop : Nat) {tokens : List Token} {shape : Shape} :
    run stop .start tokens = .ok (shape, []) ↔ Derives (tokens.map Token.lexeme) shape := by
  rw [run_eq_ok_iff, completes_start]

theorem read_eq_ok_iff {text : String} {shape : Shape} :
    read text = .ok shape ↔ Derives ((tokens text).map Token.lexeme) shape := by
  rw [← run_start_iff (Text.byteLength text.toList), read]
  split
  · next h => simp [h]
  · next h => simp [h]
  · next h => simp [h]

theorem Derives.unique {ts : List Lexeme} {first second : Shape} (h : Derives ts first)
    (k : Derives ts second) : first = second := by
  let tokens : List Token := ts.map fun lexeme => ⟨lexeme, .point 0⟩
  have htokens : tokens.map Token.lexeme = ts := by simp [tokens, Function.comp_def]
  rw [← htokens, ← run_start_iff 0] at h k
  rw [h] at k
  cases k
  rfl

/-- A text is read as a shape exactly if the rules derive the shape from its lexemes, and from the
same lexemes they derive no other. -/
theorem read_accepts_grammar :
    (∀ (text : String) (shape : Shape),
      read text = .ok shape ↔ Derives ((tokens text).map Token.lexeme) shape) ∧
    ∀ (ts : List Lexeme) (first second : Shape),
      Derives ts first → Derives ts second → first = second := by
  constructor
  · intro text shape
    exact read_eq_ok_iff
  · intro ts first second h k
    exact h.unique k

/-- Groups, semicolons without a group, parentheses and a length with zeros in front. -/
theorem read_accepts_grammar_grouped :
    read "struct{;A, B (*int);;C [007]p.T}" = .ok (.record [⟨"A", .optional (.named "int")⟩,
      ⟨"B", .optional (.named "int")⟩, ⟨"C", .sequence (.named "p.T") (.fixed 7)⟩]) := by
  have hint : Derives [.mark '(', .mark '*', .word "int", .mark ')'] (.optional (.named "int")) :=
    .parens (.pointer (.named (by decide)))
  have harray : Derives [.mark '[', .number "007", .mark ']', .word "p", .mark '.', .word "T"]
      (.sequence (.named "p.T") (.fixed 7)) :=
    .array (length?_eq_some_iff.mp (by decide)) (@Derives.qualified "p" "T" (by decide))
  have hlast := @DerivesFields.last "C" [] _ _ harray
  have hfields := (@DerivesFields.group "A" ["B"] _ _ _ _ hint hlast.semicolon).semicolon
  apply (read_accepts_grammar.1 _ _).mpr
  have hlexemes : (tokens "struct{;A, B (*int);;C [007]p.T}").map Token.lexeme =
      [.word "struct", .mark '\x7b', .mark ';', .word "A", .mark ',', .word "B", .mark '(',
        .mark '*', .word "int", .mark ')', .mark ';', .mark ';', .word "C", .mark '[',
        .number "007", .mark ']', .word "p", .mark '.', .word "T", .mark '\x7d'] := by
    decide +kernel
  rw [hlexemes]
  exact .record hfields (by decide)

end Unmarshal.TypeText
