import Unmarshal.Proofs.TypeText.Acceptance

/-!
# Tokens behind a reader

A reader between two tokens is described by the tokens it has taken: forms that are open, and whole
types and entries that the grammar derives. Each step keeps the description, and a token that fails
the reading is described by the same forms. So an error names what is wrong with the tokens up to
it.
-/
namespace Unmarshal.TypeText

open Text

/-! ## Records under way -/

/-- The names of a group under way, each with the span of its token. -/
inductive GroupNames : List Token → List (String × Span) → Prop where
  | first (name : String) (span : Span) : GroupNames [⟨.word name, span⟩] [(name, span)]
  | more {ts : List Token} {names : List (String × Span)} {comma : Token} (name : String)
      (span : Span) (h : GroupNames ts names) (hcomma : comma.lexeme = .mark ',') :
      GroupNames (ts ++ [comma, ⟨.word name, span⟩]) (names ++ [(name, span)])

theorem GroupNames.lexemes {ts : List Token} {names : List (String × Span)}
    (h : GroupNames ts names) :
    ∃ first more, names.map Prod.fst = first :: more ∧
      ts.map Token.lexeme = .word first :: moreNames more := by
  induction h with
  | first name span => exact ⟨name, [], rfl, rfl⟩
  | more name span h hcomma ih =>
    obtain ⟨first, others, hnames, hts⟩ := ih
    refine ⟨first, others ++ [name], by simp [hnames], ?_⟩
    simp [hts, hcomma, moreNames]

theorem GroupNames.mem {ts : List Token} {names : List (String × Span)} {name : String}
    {span : Span} (h : GroupNames ts names) (hname : (name, span) ∈ names) :
    ⟨.word name, span⟩ ∈ ts := by
  induction h with
  | first => simpa using hname
  | more name span h hcomma ih =>
    rcases List.mem_append.mp hname with hname | hname
    · exact List.mem_append_left _ (ih hname)
    · cases List.mem_singleton.mp hname
      simp

/-- Entries of a record. With the separator behind them, any others may follow. -/
structure Entries (separator : List Lexeme) (ts : List Token) (fields : List (Field Shape)) :
    Prop where
  distinct : (fields.map Field.name).Nodup
  derives : DerivesFields (ts.map Token.lexeme) fields
  others : ∀ us more, DerivesFields us more →
    DerivesFields (ts.map Token.lexeme ++ (separator ++ us)) (fields ++ more)

namespace Entries

variable {separator : List Lexeme} {ts : List Token} {fields : List (Field Shape)}

theorem nil : Entries [] [] [] where
  distinct := List.nodup_nil
  derives := .none
  others _ _ h := h

/-- A semicolon, whether a group stands in front of it or not. -/
theorem semicolon {token : Token} (h : Entries separator ts fields)
    (hseparator : separator = [] ∨ separator = [.mark ';']) (htoken : token.lexeme = .mark ';') :
    Entries [] (ts ++ [token]) fields where
  distinct := h.distinct
  derives := by
    rcases hseparator with rfl | rfl
    · simpa [htoken] using h.others _ _ (.semicolon .none)
    · simpa [htoken] using h.others _ _ .none
  others us more k := by
    rcases hseparator with rfl | rfl
    · simpa [htoken] using h.others _ _ (.semicolon k)
    · simpa [htoken] using h.others _ _ k

theorem group {group type : List Token} {names : List (String × Span)} {shape : Shape}
    (h : Entries [] ts fields) (hgroup : GroupNames group names)
    (htype : Derives (type.map Token.lexeme) shape)
    (hfresh : Fresh fields (groupFields (names.map Prod.fst) shape)) :
    Entries [.mark ';'] (ts ++ (group ++ type))
      (fields ++ groupFields (names.map Prod.fst) shape) := by
  obtain ⟨first, others, hnames, hlexemes⟩ := hgroup.lexemes
  have hdistinct : ((fields ++ groupFields (names.map Prod.fst) shape).map Field.name).Nodup := by
    have hall := fresh_append.mpr ⟨(⟨h.distinct, by simp⟩ : Fresh [] fields), hfresh⟩
    exact hall.1
  refine ⟨hdistinct, ?_, ?_⟩
  · simpa [hlexemes, hnames] using h.others _ _ (.last htype)
  · intro us more k
    simpa [hlexemes, hnames] using h.others _ _ (.group htype k)

end Entries

/-- A record that is open, with the entries it has. -/
def OpenRecord (separator : List Lexeme) (fields : List (Field Shape)) (ts : List Token) : Prop :=
  ∃ head entries, ts = head ++ entries ∧
    head.map Token.lexeme = [.word "struct", .mark '\x7b'] ∧ Entries separator entries fields

/-! ## Tokens that have been taken -/

/-- The tokens in front of a type, by the forms that wait for it. -/
inductive Opened : List Frame → List Token → Prop where
  | nil : Opened [] []
  | pointer {frames : List Frame} {ts us : List Token} (h : Opened frames ts)
      (hus : us.map Token.lexeme = [.mark '*']) : Opened (.pointer :: frames) (ts ++ us)
  | slice {frames : List Frame} {ts us : List Token} (h : Opened frames ts)
      (hus : us.map Token.lexeme = [.mark '[', .mark ']']) :
      Opened (.elements .dynamic :: frames) (ts ++ us)
  | array {frames : List Frame} {ts us : List Token} {text : String} {length : UInt64}
      (h : Opened frames ts) (hlength : IsLength text length)
      (hus : us.map Token.lexeme = [.mark '[', .number text, .mark ']']) :
      Opened (.elements (.fixed length) :: frames) (ts ++ us)
  | parens {frames : List Frame} {ts us : List Token} (h : Opened frames ts)
      (hus : us.map Token.lexeme = [.mark '(']) : Opened (.parens :: frames) (ts ++ us)
  | group {frames : List Frame} {ts us group : List Token} {fields : List (Field Shape)}
      {names : List (String × Span)} (h : Opened frames ts) (hrecord : OpenRecord [] fields us)
      (hgroup : GroupNames group names) :
      Opened (.group fields names :: frames) (ts ++ (us ++ group))

/-- The tokens are those of the open forms, and others behind them. -/
def Behind (frames : List Frame) (others : List Token → Prop) (ts : List Token) : Prop :=
  ∃ us vs, ts = us ++ vs ∧ Opened frames us ∧ others vs

/-- The tokens that lead to what a reader awaits. -/
def Awaiting.Took (frames : List Frame) (ts : List Token) : Awaiting → Prop
  | .type => Opened frames ts
  | .member name span => Behind frames (fun us => name ∉ reservedWords ∧
      ∃ dot, us = [⟨.word name, span⟩, dot] ∧ dot.lexeme = .mark '.') ts
  | .extent bracket => Behind frames (fun us => us = [⟨.mark '[', bracket⟩]) ts
  | .closingBracket length => Behind frames (fun us => ∃ text, IsLength text length ∧
      us.map Token.lexeme = [.mark '[', .number text]) ts
  | .openingBrace => Behind frames (fun us => us.map Token.lexeme = [.word "struct"]) ts
  | .entry fields => Behind frames (OpenRecord [] fields) ts
  | .nextName fields names =>
    ∃ us comma, ts = us ++ [comma] ∧ comma.lexeme = .mark ',' ∧
      Opened (.group fields names :: frames) us
  | .commaOrType fields names => Opened (.group fields names :: frames) ts
  | .groupEnd fields => Behind frames (OpenRecord [.mark ';'] fields) ts
  | .closingParen shape =>
    Behind (.parens :: frames) (fun us => Derives (us.map Token.lexeme) shape) ts
  | .nothing shape => Derives (ts.map Token.lexeme) shape

def State.Took (ts : List Token) : State → Prop
  | .at awaiting frames => awaiting.Took frames ts
  | .afterName name span frames =>
    Behind frames (fun us => name ∉ reservedWords ∧ us = [⟨.word name, span⟩]) ts

theorem Behind.opened {frames : List Frame} {others : List Token → Prop} {ts us : List Token}
    (h : Opened frames ts) (hus : others us) : Behind frames others (ts ++ us) :=
  ⟨ts, us, rfl, h, hus⟩

/-- More tokens behind those that are there. -/
theorem Behind.append {frames : List Frame} {others next : List Token → Prop} {ts us : List Token}
    (h : Behind frames others ts) (hnext : ∀ vs, others vs → next (vs ++ us)) :
    Behind frames next (ts ++ us) := by
  obtain ⟨vs, ws, rfl, hopened, hothers⟩ := h
  exact ⟨vs, ws ++ us, by simp, hopened, hnext ws hothers⟩

/-! ## What is wrong with tokens -/

/-- A group of a record declares a name at `span` that the record has already: an entry in front of
the group declares it, or an earlier name of the group. The type of the group is whole. -/
def Redeclares (ts : List Token) (name : String) (span : Span) : Prop :=
  ∃ outer head entries group type rest fields earlier later shape,
    ts = outer ++ (head ++ entries ++ (group ++ type)) ++ rest ∧
    head.map Token.lexeme = [.word "struct", .mark '\x7b'] ∧
    DerivesFields (entries.map Token.lexeme) fields ∧
    GroupNames group (earlier ++ (name, span) :: later) ∧
    Derives (type.map Token.lexeme) shape ∧
    (name ∈ fields.map Field.name ∨ name ∈ earlier.map Prod.fst)

theorem Redeclares.mem {ts : List Token} {name : String} {span : Span}
    (h : Redeclares ts name span) : ⟨.word name, span⟩ ∈ ts := by
  obtain ⟨_, _, _, group, _, _, _, _, _, _, rfl, -, -, hgroup, -⟩ := h
  have hname := hgroup.mem (List.mem_append_right _ (.head _))
  simp [hname]

/-- What may be wrong with a list of tokens, whatever follows them. -/
inductive Fault (ts : List Token) : ReadError → Prop where
  | unexpected (expected : Expectation) {token : Token} (h : token ∈ ts) :
      Fault ts ⟨.unexpectedToken expected token.lexeme.text, token.span⟩
  | foreign {word : String} {span : Span} (hword : word ∈ foreignWords)
      (h : ⟨.word word, span⟩ ∈ ts) : Fault ts ⟨.unrecognizedShape (word ++ " type"), span⟩
  | tooLong {before after : List Token} {bracket : Span} {token : Token} {text : String}
      (hts : ts = before ++ ⟨.mark '[', bracket⟩ :: token :: after)
      (htoken : token.lexeme = .number text) : Fault ts ⟨.invalidLength text, token.span⟩
  | noLength {before after : List Token} {bracket : Span} {token : Token}
      (hts : ts = before ++ ⟨.mark '[', bracket⟩ :: token :: after)
      (htoken : ∀ text, token.lexeme ≠ .number text) :
      Fault ts ⟨.invalidLength token.lexeme.text, bracket.merge token.span⟩
  | duplicate {name : String} {span : Span} (h : Redeclares ts name span) :
      Fault ts ⟨.duplicateField name, span⟩

theorem Fault.append {ts : List Token} {e : ReadError} (h : Fault ts e) (us : List Token) :
    Fault (ts ++ us) e := by
  cases h with
  | unexpected expected h => exact .unexpected expected (List.mem_append_left us h)
  | foreign hword h => exact .foreign hword (List.mem_append_left us h)
  | @tooLong before after bracket token text hts htoken =>
    have happend : ts ++ us = before ++ ⟨.mark '[', bracket⟩ :: token :: (after ++ us) := by
      simp [hts]
    exact .tooLong happend htoken
  | @noLength before after bracket token hts htoken =>
    have happend : ts ++ us = before ++ ⟨.mark '[', bracket⟩ :: token :: (after ++ us) := by
      simp [hts]
    exact .noLength happend htoken
  | duplicate h =>
    obtain ⟨outer, head, entries, group, type, rest, fields, earlier, later, shape, rfl, h⟩ := h
    exact .duplicate ⟨outer, head, entries, group, type, rest ++ us, fields, earlier, later, shape,
      by simp, h⟩

/-! ## Steps -/

/-- A reading that goes on with these tokens taken, or has failed over them. -/
def Accounts (ts : List Token) : Except ReadError State → Prop
  | .ok state => state.Took ts
  | .error e => Fault ts e

/-- A step at a token behind others. -/
def AccountsAt (ts : List Token) (token : Token) : Except ReadError Progress → Prop
  | .ok (.taken state) => state.Took (ts ++ [token])
  | .ok (.complete shape) => Derives (ts.map Token.lexeme) shape
  | .error e => Fault (ts ++ [token]) e

@[simp] theorem accountsAt_map (ts : List Token) (token : Token)
    (result : Except ReadError State) :
    AccountsAt ts token (result.map .taken) ↔ Accounts (ts ++ [token]) result := by
  cases result <;> rfl

/-- A name that a group may not declare has been declared before. -/
theorem addGroup_eq_error {fields : List (Field Shape)} {names : List (String × Span)}
    {type : Shape} {e : ReadError} (h : addGroup fields names type = .error e) :
    ∃ earlier name span later, names = earlier ++ (name, span) :: later ∧
      e = ⟨.duplicateField name, span⟩ ∧
      (name ∈ fields.map Field.name ∨ name ∈ earlier.map Prod.fst) := by
  induction names generalizing fields with
  | nil => cases h
  | cons first names ih =>
    obtain ⟨name, span⟩ := first
    rw [addGroup] at h
    split at h
    · next hdeclared =>
      cases h
      refine ⟨[], name, span, names, rfl, rfl, .inl ?_⟩
      simpa using hdeclared
    · obtain ⟨earlier, other, place, later, rfl, rfl, hother⟩ := ih h
      refine ⟨(name, span) :: earlier, other, place, later, rfl, rfl, ?_⟩
      simpa [or_assoc, or_comm, or_left_comm] using hother

section

variable {frames : List Frame} {ts us : List Token} {shape : Shape}

/-- A whole type behind the forms that wait for it. -/
theorem accounts_closed (h : Opened frames ts) (hus : Derives (us.map Token.lexeme) shape) :
    Accounts (ts ++ us) (closed shape frames) := by
  induction h generalizing us shape with
  | nil => exact hus
  | @pointer frames ts star h hstar ih =>
    rw [List.append_assoc]
    apply ih
    rw [List.map_append, hstar]
    exact .pointer hus
  | @slice frames ts bracket h hbracket ih =>
    rw [List.append_assoc]
    apply ih
    rw [List.map_append, hbracket]
    exact .slice hus
  | @array frames ts bracket text length h hlength hbracket ih =>
    rw [List.append_assoc]
    apply ih
    rw [List.map_append, hbracket]
    exact .array hlength hus
  | parens h hparens ih => exact .opened (.parens h hparens) hus
  | @group frames ts head names fields spans h hrecord hgroup ih =>
    obtain ⟨head, entries, rfl, hhead, hentries⟩ := hrecord
    simp only [closed, close]
    cases hadd : addGroup fields spans shape with
    | ok added =>
      obtain ⟨hfresh, rfl⟩ := addGroup_eq_ok_iff.mp hadd
      refine ⟨ts, head ++ (entries ++ (names ++ us)), by simp, h, head, _, rfl, hhead, ?_⟩
      exact hentries.group hgroup hus hfresh
    | error e =>
      obtain ⟨earlier, name, span, later, rfl, rfl, hname⟩ := addGroup_eq_error hadd
      exact .duplicate ⟨ts, head, entries, names, us, [], fields, earlier, later, shape,
        by simp, hhead, hentries.derives, hgroup, hus, hname⟩

variable {token : Token}

theorem accounts_openType (h : Opened frames ts) :
    Accounts (ts ++ [token]) (openType frames token) := by
  rw [openType]
  split
  · next hstar => exact .pointer h (by simp [hstar])
  · next hbracket => exact .opened h (by rw [← hbracket])
  · next hparens => exact .parens h (by simp [hparens])
  · next word hword =>
    by_cases hstruct : word = "struct"
    · rw [if_pos hstruct]
      exact .opened h (by simp [hword, hstruct])
    · rw [if_neg hstruct]
      by_cases hforeign : word ∈ foreignWords
      · rw [if_pos hforeign]
        exact .foreign hforeign (by simp [← hword])
      · rw [if_neg hforeign]
        exact .opened h ⟨by simp [reservedWords, hstruct, hforeign], by rw [← hword]⟩
  · exact .unexpected .type (by simp)

theorem accounts_openSequence {bracket : Span} (h : Opened frames ts) :
    Accounts (ts ++ [⟨.mark '[', bracket⟩] ++ [token]) (openSequence bracket frames token) := by
  rw [openSequence]
  split
  · next hbracket =>
    rw [List.append_assoc]
    exact .slice h (by simp [hbracket])
  · next text htext =>
    cases hlength : length? text with
    | some length =>
      rw [List.append_assoc]
      exact .opened h ⟨text, length?_eq_some_iff.mp hlength, by simp [htext]⟩
    | none => exact .tooLong (List.append_assoc ts _ _) htext
  · next htext => exact .noLength (List.append_assoc ts _ _) htext

section

variable {separator : List Lexeme} {fields : List (Field Shape)}

theorem behind_semicolon (h : Behind frames (OpenRecord separator fields) ts)
    (hseparator : separator = [] ∨ separator = [.mark ';']) (htoken : token.lexeme = .mark ';') :
    Behind frames (OpenRecord [] fields) (ts ++ [token]) := by
  apply Behind.append h
  rintro _ ⟨head, entries, rfl, hhead, hentries⟩
  exact ⟨head, entries ++ [token], by simp, hhead, hentries.semicolon hseparator htoken⟩

/-- The brace that makes a record whole. -/
theorem accounts_brace (h : Behind frames (OpenRecord separator fields) ts)
    (htoken : token.lexeme = .mark '\x7d') :
    Accounts (ts ++ [token]) (closed (.record fields) frames) := by
  obtain ⟨us, _, rfl, hopened, head, entries, rfl, hhead, hentries⟩ := h
  rw [List.append_assoc]
  apply accounts_closed hopened
  simpa [hhead, htoken] using Derives.record hentries.derives hentries.distinct

end

theorem accountsAt_take {awaiting : Awaiting} (h : awaiting.Took frames ts) :
    AccountsAt ts token (take awaiting frames token) := by
  have hunexpected (expected : Expectation) :
      Fault (ts ++ [token]) ⟨.unexpectedToken expected token.lexeme.text, token.span⟩ :=
    .unexpected expected (by simp)
  cases awaiting with
  | type =>
    rw [take, accountsAt_map]
    exact accounts_openType h
  | member name span =>
    simp only [take]
    split
    · next member hmember =>
      obtain ⟨us, _, rfl, hopened, hname, dot, rfl, hdot⟩ := h
      rw [accountsAt_map, List.append_assoc]
      apply accounts_closed hopened
      simpa [hdot, hmember] using Derives.qualified hname
    · exact hunexpected _
  | extent bracket =>
    obtain ⟨us, _, rfl, hopened, rfl⟩ := h
    rw [take, accountsAt_map]
    exact accounts_openSequence hopened
  | closingBracket length =>
    simp only [take]
    split
    · next hbracket =>
      obtain ⟨us, vs, rfl, hopened, text, hlength, hvs⟩ := h
      simp only [AccountsAt, List.append_assoc]
      exact .array hopened hlength (by simp [hvs, hbracket])
    · exact hunexpected _
  | openingBrace =>
    simp only [take]
    split
    · next hbrace =>
      apply Behind.append h
      intro vs hvs
      exact ⟨vs ++ [token], [], by simp, by simp [hvs, hbrace], .nil⟩
    · exact hunexpected _
  | entry fields =>
    simp only [take]
    split
    · next hbrace =>
      rw [accountsAt_map]
      exact accounts_brace h hbrace
    · next hsemicolon => exact behind_semicolon h (.inl rfl) hsemicolon
    · next name hname =>
      obtain ⟨us, vs, rfl, hopened, hrecord⟩ := h
      simp only [AccountsAt, List.append_assoc]
      apply Opened.group hopened hrecord
      have hone := GroupNames.first name token.span
      rwa [← hname] at hone
    · exact hunexpected _
  | nextName fields names =>
    simp only [take]
    split
    · next name hname =>
      obtain ⟨_, comma, rfl, hcomma, hgroup⟩ := h
      cases hgroup with
      | group hopened hrecord hgroup =>
        simp only [AccountsAt, List.append_assoc]
        apply Opened.group hopened hrecord
        have hmore := GroupNames.more name token.span hgroup hcomma
        rwa [← hname] at hmore
    · exact hunexpected _
  | commaOrType fields names =>
    simp only [take]
    split
    · next hcomma => exact ⟨ts, token, rfl, hcomma, h⟩
    · rw [accountsAt_map]
      exact accounts_openType h
  | groupEnd fields =>
    simp only [take]
    split
    · next hsemicolon => exact behind_semicolon h (.inr rfl) hsemicolon
    · next hbrace =>
      rw [accountsAt_map]
      exact accounts_brace h hbrace
    · exact hunexpected _
  | closingParen shape =>
    simp only [take]
    split
    · next hparen =>
      obtain ⟨_, vs, rfl, hopened, hshape⟩ := h
      cases hopened with
      | @parens _ us paren hopened hopen =>
        rw [accountsAt_map, List.append_assoc, List.append_assoc]
        apply accounts_closed hopened
        simpa [hopen, hparen] using Derives.parens hshape
    · exact hunexpected _
  | nothing shape => exact h

/-- A name behind which no dot stands is a whole type. -/
theorem accounts_afterName {name : String} {span : Span}
    (h : (State.afterName name span frames).Took ts) :
    Accounts ts (closed (.named name) frames) := by
  obtain ⟨us, _, rfl, hopened, hname, rfl⟩ := h
  exact accounts_closed hopened (.named hname)

theorem accountsAt_step {state : State} (h : state.Took ts) :
    AccountsAt ts token (state.step token) := by
  cases state with
  | «at» awaiting frames => exact accountsAt_take h
  | afterName name span frames =>
    simp only [State.step]
    split
    · next hdot =>
      obtain ⟨us, _, rfl, hopened, hname, rfl⟩ := h
      simp only [AccountsAt, List.append_assoc]
      exact .opened hopened ⟨hname, token, rfl, hdot⟩
    · have hclosed := accounts_afterName h
      rw [closed] at hclosed
      cases hclose : close (.named name) frames with
      | ok result =>
        rw [hclose] at hclosed
        exact accountsAt_take hclosed
      | error e =>
        rw [hclose] at hclosed
        exact hclosed.append [token]

end

end Unmarshal.TypeText
