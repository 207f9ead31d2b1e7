import Unmarshal.Proofs.TypeText.Taken
import Unmarshal.Proofs.TypeText.Tiling

/-!
# Errors point at their bytes

A reading accounts for all tokens: a whole type stands in front of those that are left, or an error
says what is wrong with the tokens up to one of them or what is missing behind the last. Tokens tile
the text, so the span of an error is bytes of the text, and they are what its cause quotes.
-/
namespace Unmarshal.TypeText

open Text

/-! ## Whole readings -/

/-- The last token is a dot. -/
def EndsInDot (ts : List Token) : Prop := ∃ token ∈ ts.getLast?, token.lexeme = .mark '.'

def State.AwaitsMember (state : State) : Prop :=
  ∃ name span frames, state = .at (.member name span) frames

/-- What is missing behind the last of the tokens, in a text of `stop` bytes. -/
inductive EndFault (stop : Nat) (ts : List Token) : ReadError → Prop where
  | missing (expected : Expectation) (h : ¬ EndsInDot ts) :
      EndFault stop ts ⟨.unexpectedEnd expected, .point stop⟩
  | member {before : List Token} {name : String} {span : Span} {dot : Token}
      (hts : ts = before ++ [⟨.word name, span⟩, dot]) (hdot : dot.lexeme = .mark '.') :
      EndFault stop ts ⟨.unexpectedEnd .qualifiedName, span⟩

/-- The outcome of a reading of all tokens: a whole type in front of those that are left, or an
error over them. -/
def AccountsFor (stop : Nat) (ts : List Token) : Except ReadError (Shape × List Token) → Prop
  | .ok (shape, rest) => ∃ us, ts = us ++ rest ∧ Derives (us.map Token.lexeme) shape
  | .error e => Fault ts e ∨ EndFault stop ts e

section

variable {frames : List Frame} {ts : List Token} {token : Token} {state next : State} {stop : Nat}

/-- A dot is taken behind a name only. -/
theorem awaitsMember_of_step (hdot : token.lexeme = .mark '.')
    (h : state.step token = .ok (.taken next)) : next.AwaitsMember := by
  have htake : ∀ awaiting frames, take awaiting frames token ≠ .ok (.taken next) := by
    intro awaiting frames
    cases awaiting <;> simp [take, openType, openSequence, hdot, Except.map]
  cases state with
  | «at» awaiting frames => exact absurd h (htake awaiting frames)
  | afterName name span frames =>
    rw [State.step, if_pos hdot] at h
    cases h
    exact ⟨name, span, frames, rfl⟩

theorem accountsFor_finish {awaiting : Awaiting} (h : awaiting.Took frames ts)
    (hdot : EndsInDot ts → ∃ name span, awaiting = .member name span) :
    AccountsFor stop ts ((finish stop awaiting).map fun shape => (shape, [])) := by
  have hmissing (expected : Expectation) (hother : ∀ name span, awaiting ≠ .member name span) :
      AccountsFor stop ts ((finish.missing stop expected).map fun shape => (shape, [])) := by
    refine .inr (.missing expected fun hends => ?_)
    obtain ⟨name, span, hmember⟩ := hdot hends
    exact hother name span hmember
  cases awaiting with
  | nothing shape => exact ⟨ts, by simp, h⟩
  | member name span =>
    obtain ⟨us, _, rfl, -, -, dot, rfl, hlast⟩ := h
    exact .inr (.member rfl hlast)
  | _ => exact hmissing _ (by simp)

theorem accountsFor_state_finish (h : state.Took ts) (hdot : EndsInDot ts → state.AwaitsMember) :
    AccountsFor stop ts ((state.finish stop).map fun shape => (shape, [])) := by
  cases state with
  | «at» awaiting frames =>
    apply accountsFor_finish h
    intro hends
    obtain ⟨name, span, others, hstate⟩ := hdot hends
    cases hstate
    exact ⟨name, span, rfl⟩
  | afterName name span frames =>
    have hclosed := accounts_afterName h
    obtain ⟨us, _, rfl, -, -, rfl⟩ := h
    rw [closed] at hclosed
    rw [State.finish]
    cases hclose : close (.named name) frames with
    | ok result =>
      rw [hclose] at hclosed
      apply accountsFor_finish hclosed
      rintro ⟨token, hlast, hdot⟩
      rw [List.getLast?_append] at hlast
      cases hlast
      cases hdot
    | error e =>
      rw [hclose] at hclosed
      exact .inl hclosed

theorem accountsFor_run (h : state.Took ts) (hdot : EndsInDot ts → state.AwaitsMember)
    (tokens : List Token) : AccountsFor stop (ts ++ tokens) (run stop state tokens) := by
  induction tokens generalizing ts state with
  | nil =>
    rw [run, List.append_nil]
    exact accountsFor_state_finish h hdot
  | cons token tokens ih =>
    have hstep : AccountsAt ts token (state.step token) := accountsAt_step h
    have happend : ts ++ token :: tokens = ts ++ [token] ++ tokens := by simp
    rw [run]
    cases hnext : state.step token with
    | ok progress =>
      rw [hnext] at hstep
      cases progress with
      | taken next =>
        rw [happend]
        apply ih hstep
        rintro ⟨last, hlast, hlexeme⟩
        obtain rfl : token = last := by simpa using hlast
        exact awaitsMember_of_step hlexeme hnext
      | complete shape => exact ⟨ts, rfl, hstep⟩
    | error e =>
      rw [hnext] at hstep
      rw [happend]
      exact .inl (hstep.append tokens)

end

/-- What a reader makes of a list of tokens. -/
theorem accountsFor_start (stop : Nat) (tokens : List Token) :
    AccountsFor stop tokens (run stop .start tokens) := by
  have hstart : State.start.Took [] := Opened.nil
  apply accountsFor_run hstart
  rintro ⟨token, hlast, -⟩
  cases hlast

/-! ## Errors in the text -/

/-- Where and why a text is no type, in a form that can be compared. -/
def readError? (text : String) : Option ReadError :=
  match read text with
  | .ok _ => none
  | .error e => some e

theorem readError?_eq_some_iff {text : String} {e : ReadError} :
    readError? text = some e ↔ read text = .error e := by
  rw [readError?]
  split <;> simp [*]

/-- A text is what is left of it without the blanks at its end, and these blanks. -/
theorem exists_eq_trimEnd_append (cs : List Char) :
    ∃ blanks, (∀ c ∈ blanks, isBlank c = true) ∧ cs = trimEnd cs ++ blanks := by
  refine ⟨(cs.reverse.takeWhile isBlank).reverse, ?_, ?_⟩
  · intro c hc
    exact List.all_eq_true.mp List.all_takeWhile c (List.mem_reverse.mp hc)
  · rw [trimEnd, ← List.reverse_append, List.takeWhile_append_dropWhile, List.reverse_reverse]

theorem isBlank_getLast_trimEnd {cs : List Char} {c : Char} (h : c ∈ (trimEnd cs).getLast?) :
    isBlank c = false := by
  rw [trimEnd, List.getLast?_reverse] at h
  have hnot := List.head?_dropWhile_not isBlank cs.reverse
  rw [h] at hnot
  exact hnot

/-- What the bytes of the text at the span are, by the cause of the error. -/
def ReadError.Locates (text : String) (e : ReadError) : Prop :=
  match e.cause with
  | .unexpectedToken _ found => e.span.slice text.toList = found.toList
  | .unrecognizedShape what =>
    ∃ word ∈ foreignWords, what = word ++ " type" ∧ e.span.slice text.toList = word.toList
  | .invalidLength found =>
    ∃ before bracket token after,
      tokens text = before ++ ⟨.mark '[', bracket⟩ :: token :: after ∧ token.lexeme.text = found ∧
      ((∃ digits, token.lexeme = .number digits) ∧ e.span.slice text.toList = found.toList ∨
        (∀ digits, token.lexeme ≠ .number digits) ∧ ∃ blanks, (∀ c ∈ blanks, isBlank c = true) ∧
          e.span.slice text.toList = '[' :: (blanks ++ found.toList))
  | .duplicateField name =>
    e.span.slice text.toList = name.toList ∧ Redeclares (tokens text) name e.span
  | .trailingInput rest =>
    e.span.stop = byteLength text.toList ∧ rest ≠ "" ∧
      (∀ c ∈ rest.toList.getLast?, isBlank c = false) ∧
      (∃ blanks, (∀ c ∈ blanks, isBlank c = true) ∧
        e.span.slice text.toList = rest.toList ++ blanks) ∧
      ∃ before token after shape, tokens text = before ++ token :: after ∧
        Derives (before.map Token.lexeme) shape ∧ token.span.start = e.span.start
  | .unexpectedEnd _ =>
    ¬ EndsInDot (tokens text) ∧ e.span = .point (byteLength text.toList) ∨
      ∃ before name dot, tokens text = before ++ [⟨.word name, e.span⟩, dot] ∧
        dot.lexeme = .mark '.' ∧ e.span.slice text.toList = name.toList

/-- An error points at bytes of the text, which a diagnostic underlines as they are. -/
structure ReadError.Located (text : String) (e : ReadError) : Prop where
  fits : e.span.Fits text.toList
  underlined : e.span.clamp (byteLength text.toList) = e.span
  locates : e.Locates text

section

variable {text : String} {e : ReadError}

theorem ReadError.Located.of_covers {inside : List Char} (h : e.span.Covers text.toList inside)
    (hne : inside ≠ []) (hlocates : e.span.slice text.toList = inside → e.Locates text) :
    e.Located text :=
  ⟨h.fits, h.clamp_eq hne, hlocates h.slice_eq⟩

theorem Fault.located (h : Fault (tokens text) e) : e.Located text := by
  have htiles := tiles_tokens text
  cases h with
  | @unexpected expected token h =>
    obtain ⟨hcovers, hne⟩ := htiles.covers h
    exact .of_covers hcovers hne id
  | @foreign word span hword h =>
    obtain ⟨hcovers, hne⟩ := htiles.covers h
    exact .of_covers hcovers hne fun hslice => ⟨word, hword, rfl, hslice⟩
  | @tooLong before after bracket token digits hts htoken =>
    have hmem : token ∈ tokens text := by simp [hts]
    obtain ⟨hcovers, hne⟩ := htiles.covers hmem
    apply ReadError.Located.of_covers hcovers hne
    intro hslice
    have htext : token.lexeme.text = digits := by rw [htoken]; rfl
    refine ⟨before, bracket, token, after, hts, htext, .inl ⟨⟨digits, htoken⟩, ?_⟩⟩
    rw [← htext]
    exact hslice
  | @noLength before after bracket token hts htoken =>
    rw [hts] at htiles
    obtain ⟨blanks, hblanks, hcovers⟩ := htiles.covers_merge
    have hchars : (⟨.mark '[', bracket⟩ : Token).chars = ['['] := String.toList_singleton '['
    rw [hchars] at hcovers
    apply ReadError.Located.of_covers hcovers (by simp)
    intro hslice
    exact ⟨before, bracket, token, after, hts, rfl, .inr ⟨htoken, blanks, hblanks, hslice⟩⟩
  | @duplicate name span h =>
    obtain ⟨hcovers, hne⟩ := htiles.covers h.mem
    exact .of_covers hcovers hne fun hslice => ⟨hslice, h⟩

theorem EndFault.located (h : EndFault (byteLength text.toList) (tokens text) e) :
    e.Located text := by
  cases h with
  | missing expected h => exact ⟨Span.fits_point_end _, Span.clamp_point_end _, .inl ⟨h, rfl⟩⟩
  | @member before name span dot hts hdot =>
    have hmem : ⟨.word name, span⟩ ∈ tokens text := by simp [hts]
    obtain ⟨hcovers, hne⟩ := (tiles_tokens text).covers hmem
    exact .of_covers hcovers hne fun hslice => .inr ⟨before, name, dot, hts, hdot, hslice⟩

/-- What follows a whole type. -/
theorem located_trailing {before after : List Token} {token : Token} {shape : Shape}
    (hts : tokens text = before ++ token :: after)
    (hbefore : Derives (before.map Token.lexeme) shape) :
    ReadError.Located text
      ⟨.trailingInput (String.ofList (trimEnd (dropBytes token.span.start text.toList))),
        ⟨token.span.start, byteLength text.toList⟩⟩ := by
  have htiles := tiles_tokens text
  rw [hts] at htiles
  obtain ⟨front, back, hcs, hstart, hdrop, hne, hsolid⟩ := htiles.dropBytes_start
  obtain ⟨blanks, hblanks, htrim⟩ := exists_eq_trimEnd_append (token.chars ++ back)
  have hcovers : (⟨token.span.start, byteLength text.toList⟩ : Span).Covers text.toList
      (token.chars ++ back) := by
    refine ⟨front, [], by simp [hcs], ?_⟩
    rw [hstart, hcs, byteLength_append]
  rw [hdrop]
  apply ReadError.Located.of_covers hcovers (by simp [hne])
  intro hslice
  refine ⟨rfl, ?_, ?_, ⟨blanks, hblanks, ?_⟩, before, token, after, shape, hts, hbefore, rfl⟩
  · intro hempty
    obtain ⟨c, chars, hchars⟩ := List.exists_cons_of_ne_nil hne
    have htrimmed : trimEnd (token.chars ++ back) = [] := by simpa using hempty
    rw [htrimmed, List.nil_append] at htrim
    have hblank := hblanks c (by simp [← htrim, hchars])
    rw [hsolid c (by simp [hchars])] at hblank
    cases hblank
  · intro c hc
    rw [String.toList_ofList] at hc
    exact isBlank_getLast_trimEnd hc
  · rw [String.toList_ofList, ← htrim]
    exact hslice

/-- Where a text is no type, the error points at the bytes that make it none. Its span lies in the
text, splits no character and is underlined as it is; the bytes at it are those that the cause
names. Every token is the bytes at its span. -/
theorem read_error_located (h : read text = .error e) :
    e.Located text ∧ ∀ token ∈ tokens text, token.span.Fits text.toList ∧
      token.span.slice text.toList = token.lexeme.text.toList := by
  constructor
  · have haccounts := accountsFor_start (byteLength text.toList) (tokens text)
    rw [read] at h
    split at h
    · cases h
    · next shape token after hrun =>
      rw [hrun] at haccounts
      obtain ⟨before, hts, hbefore⟩ := haccounts
      cases h
      exact located_trailing hts hbefore
    · next hrun =>
      cases h
      rw [hrun] at haccounts
      rcases haccounts with hfault | hend
      · exact hfault.located
      · exact hend.located
  · intro token htoken
    obtain ⟨hcovers, -⟩ := (tiles_tokens text).covers htoken
    exact ⟨hcovers.fits, hcovers.slice_eq⟩

/-- A name of two bytes that an earlier group declares. -/
theorem read_error_located_accented :
    read "struct{é, x int; y, é T}" = .error ⟨.duplicateField "é", ⟨21, 23⟩⟩ ∧
      ReadError.Located "struct{é, x int; y, é T}" ⟨.duplicateField "é", ⟨21, 23⟩⟩ := by
  have hread : read "struct{é, x int; y, é T}" = .error ⟨.duplicateField "é", ⟨21, 23⟩⟩ :=
    readError?_eq_some_iff.mp (by decide +kernel)
  exact ⟨hread, (read_error_located hread).1⟩

end

end Unmarshal.TypeText
