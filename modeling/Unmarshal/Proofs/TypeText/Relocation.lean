import Unmarshal.TypeText.Reader

/-!
# Readings of moved tokens

A reader decides by what tokens say and only carries their spans. So tokens that say the same
elsewhere are read alike, and an error moves with the tokens that it points at.
-/
namespace Unmarshal.TypeText

open Text

/-! ## Moved data

Whatever carries a span is moved by a map of spans. -/

def Token.relocate (f : Span → Span) (token : Token) : Token := ⟨token.lexeme, f token.span⟩

def ReadError.relocate (f : Span → Span) (e : ReadError) : ReadError := ⟨e.cause, f e.span⟩

def Frame.relocate (f : Span → Span) : Frame → Frame
  | .group fields names => .group fields (names.map (Prod.map id f))
  | .pointer => .pointer
  | .elements extent => .elements extent
  | .parens => .parens

def Awaiting.relocate (f : Span → Span) : Awaiting → Awaiting
  | .member name span => .member name (f span)
  | .extent bracket => .extent (f bracket)
  | .nextName fields names => .nextName fields (names.map (Prod.map id f))
  | .commaOrType fields names => .commaOrType fields (names.map (Prod.map id f))
  | .type => .type
  | .closingBracket length => .closingBracket length
  | .openingBrace => .openingBrace
  | .entry fields => .entry fields
  | .groupEnd fields => .groupEnd fields
  | .closingParen shape => .closingParen shape
  | .nothing shape => .nothing shape

def State.relocate (f : Span → Span) : State → State
  | .at awaiting frames => .at (awaiting.relocate f) (frames.map (Frame.relocate f))
  | .afterName name span frames => .afterName name (f span) (frames.map (Frame.relocate f))

def Progress.relocate (f : Span → Span) : Progress → Progress
  | .taken state => .taken (state.relocate f)
  | .complete shape => .complete shape

/-- A result whose value and error are moved. -/
def relocated {α : Type} (f : Span → Span) (move : α → α) :
    Except ReadError α → Except ReadError α
  | .ok a => .ok (move a)
  | .error e => .error (e.relocate f)

section

variable {f : Span → Span}

@[simp] theorem relocate_lexeme (token : Token) : (token.relocate f).lexeme = token.lexeme := rfl

@[simp] theorem relocate_span (token : Token) : (token.relocate f).span = f token.span := rfl

@[simp] theorem relocated_ok {α : Type} (move : α → α) (a : α) :
    relocated f move (.ok a) = .ok (move a) := rfl

@[simp] theorem relocated_map_taken (result : Except ReadError State) :
    relocated f (Progress.relocate f) (result.map .taken) =
      (relocated f (State.relocate f) result).map .taken := by
  cases result <;> rfl

/-! ## Steps -/

theorem addGroup_relocate (fields : List (Field Shape)) (names : List (String × Span))
    (shape : Shape) :
    addGroup fields (names.map (Prod.map id f)) shape =
      relocated f id (addGroup fields names shape) := by
  induction names generalizing fields with
  | nil => rfl
  | cons first names ih =>
    obtain ⟨name, span⟩ := first
    simp only [List.map_cons, Prod.map_apply, id_eq, addGroup]
    split
    · rfl
    · exact ih _

theorem close_relocate (shape : Shape) (frames : List Frame) :
    close shape (frames.map (Frame.relocate f)) =
      relocated f (Prod.map (Awaiting.relocate f) (List.map (Frame.relocate f)))
        (close shape frames) := by
  induction frames generalizing shape with
  | nil => rfl
  | cons frame frames ih =>
    cases frame with
    | pointer => exact ih _
    | elements extent => exact ih _
    | parens => rfl
    | group fields names =>
      simp only [List.map_cons, Frame.relocate, close, addGroup_relocate]
      cases addGroup fields names shape <;> rfl

theorem closed_relocate (shape : Shape) (frames : List Frame) :
    closed shape (frames.map (Frame.relocate f)) =
      relocated f (State.relocate f) (closed shape frames) := by
  simp only [closed, close_relocate]
  cases close shape frames <;> rfl

theorem openType_relocate (frames : List Frame) (token : Token) :
    openType (frames.map (Frame.relocate f)) (token.relocate f) =
      relocated f (State.relocate f) (openType frames token) := by
  simp only [openType, relocate_lexeme, relocate_span]
  split
  · rfl
  · rfl
  · rfl
  · split
    · rfl
    · split <;> rfl
  · rfl

theorem openSequence_relocate (hmerge : ∀ s t : Span, f (s.merge t) = (f s).merge (f t))
    (bracket : Span) (frames : List Frame) (token : Token) :
    openSequence (f bracket) (frames.map (Frame.relocate f)) (token.relocate f) =
      relocated f (State.relocate f) (openSequence bracket frames token) := by
  simp only [openSequence, relocate_lexeme, relocate_span, ← hmerge]
  split
  · rfl
  · split <;> rfl
  · rfl

theorem take_relocate (hmerge : ∀ s t : Span, f (s.merge t) = (f s).merge (f t))
    (awaiting : Awaiting) (frames : List Frame) (token : Token) :
    take (awaiting.relocate f) (frames.map (Frame.relocate f)) (token.relocate f) =
      relocated f (Progress.relocate f) (take awaiting frames token) := by
  cases awaiting with
  | type => simp only [Awaiting.relocate, take, openType_relocate, relocated_map_taken]
  | extent bracket =>
    simp only [Awaiting.relocate, take, openSequence_relocate hmerge, relocated_map_taken]
  | commaOrType fields names =>
    by_cases hcomma : token.lexeme = .mark ','
    · simp only [Awaiting.relocate, take, relocate_lexeme, hcomma, if_true]
      rfl
    · simp only [Awaiting.relocate, take, relocate_lexeme, hcomma, if_false, relocated_map_taken]
      rw [← openType_relocate]
      rfl
  | nextName fields names =>
    simp only [Awaiting.relocate, take, relocate_lexeme, relocate_span]
    split
    · simp [Progress.relocate, State.relocate, Awaiting.relocate]
    · rfl
  | closingBracket length =>
    by_cases hbracket : token.lexeme = .mark ']'
    all_goals
      simp only [Awaiting.relocate, take, relocate_lexeme, hbracket, if_true, if_false]
      rfl
  | openingBrace =>
    by_cases hbrace : token.lexeme = .mark '\x7b'
    all_goals
      simp only [Awaiting.relocate, take, relocate_lexeme, hbrace, if_true, if_false]
      rfl
  | closingParen shape =>
    by_cases hparen : token.lexeme = .mark ')'
    · simp only [Awaiting.relocate, take, relocate_lexeme, hparen, if_true, closed_relocate,
        relocated_map_taken]
    · simp only [Awaiting.relocate, take, relocate_lexeme, hparen, if_false]
      rfl
  | nothing shape => rfl
  | member | entry | groupEnd =>
    simp only [Awaiting.relocate, take, relocate_lexeme, relocate_span, closed_relocate]
    split <;> first
      | rfl
      | exact (relocated_map_taken _).symm

theorem step_relocate (hmerge : ∀ s t : Span, f (s.merge t) = (f s).merge (f t))
    (state : State) (token : Token) :
    (state.relocate f).step (token.relocate f) =
      relocated f (Progress.relocate f) (state.step token) := by
  cases state with
  | «at» awaiting frames => exact take_relocate hmerge awaiting frames token
  | afterName name span frames =>
    simp only [State.relocate, State.step, relocate_lexeme, close_relocate]
    split
    · rfl
    · cases close (.named name) frames with
      | ok result => exact take_relocate hmerge result.1 result.2 token
      | error e => rfl

/-! ## Runs -/

/-- The result of a reading of `stop` bytes and that of a reading of `stop'` bytes where tokens and
errors have moved. What is missing is missing at the end of either text. -/
def Corresponds (f : Span → Span) (stop stop' : Nat) :
    Except ReadError (Shape × List Token) → Except ReadError (Shape × List Token) → Prop
  | .ok (shape, rest), result => result = .ok (shape, rest.map (Token.relocate f))
  | .error e, result => result = .error (e.relocate f) ∨
      ∃ expected, e = ⟨.unexpectedEnd expected, .point stop⟩ ∧
        result = .error ⟨.unexpectedEnd expected, .point stop'⟩

theorem finish_corresponds (stop stop' : Nat) (awaiting : Awaiting) :
    Corresponds f stop stop' ((finish stop awaiting).map fun shape => (shape, []))
      ((finish stop' (awaiting.relocate f)).map fun shape => (shape, [])) := by
  cases awaiting with
  | nothing shape => rfl
  | member name span => exact .inl rfl
  | _ => exact .inr ⟨_, rfl, rfl⟩

theorem state_finish_corresponds (stop stop' : Nat) (state : State) :
    Corresponds f stop stop' ((state.finish stop).map fun shape => (shape, []))
      (((state.relocate f).finish stop').map fun shape => (shape, [])) := by
  cases state with
  | «at» awaiting frames => exact finish_corresponds stop stop' awaiting
  | afterName name span frames =>
    simp only [State.relocate, State.finish, close_relocate]
    cases close (.named name) frames with
    | ok result => exact finish_corresponds stop stop' result.1
    | error e => exact .inl rfl

theorem run_corresponds (hmerge : ∀ s t : Span, f (s.merge t) = (f s).merge (f t))
    (stop stop' : Nat) (state : State) (tokens : List Token) :
    Corresponds f stop stop' (run stop state tokens)
      (run stop' (state.relocate f) (tokens.map (Token.relocate f))) := by
  induction tokens generalizing state with
  | nil => exact state_finish_corresponds stop stop' state
  | cons token tokens ih =>
    rw [List.map_cons, run, run, step_relocate hmerge]
    cases state.step token with
    | error e => exact .inl rfl
    | ok progress =>
      cases progress with
      | taken next => exact ih next
      | complete shape => rfl

end

end Unmarshal.TypeText
