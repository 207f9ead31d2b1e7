import Unmarshal.Proofs.TypeText.Cuts
import Unmarshal.Proofs.TypeText.Faults

/-!
# The first token at fault

A reader never looks past the token it takes. So an error at a token is decided by the tokens up to
it: every text that starts with these tokens fails with the same error, whatever it says behind
them.
-/
namespace Unmarshal.TypeText

open Text

/-- Causes that the reader finds at a token. The others are found where the text ends, behind the
type, or at a name that was taken long before. -/
def Cause.AtToken : Cause → Prop
  | .unexpectedToken .. | .unrecognizedShape _ | .invalidLength _ => True
  | .unexpectedEnd _ | .duplicateField _ | .trailingInput _ => False

/-- The error points at the token, or at a bracket among those in front of it up to the token. -/
def ReadError.EndsAt (e : ReadError) (before : List Token) (token : Token) : Prop :=
  e.span = token.span ∨
    ∃ bracket, ⟨.mark '[', bracket⟩ ∈ before ∧ e.span = bracket.merge token.span

/-! ## Steps -/

section

variable {shape : Shape} {frames : List Frame} {token : Token} {e : ReadError} {stop : Nat}

theorem not_atToken_of_close (h : close shape frames = .error e) : ¬ e.cause.AtToken := by
  induction frames generalizing shape with
  | nil => cases h
  | cons frame frames ih =>
    cases frame with
    | pointer => exact ih h
    | elements extent => exact ih h
    | parens => cases h
    | group fields names =>
      rw [close] at h
      split at h
      · cases h
      · next hadd =>
        cases h
        obtain ⟨_, _, _, _, _, rfl, _⟩ := addGroup_eq_error hadd
        exact id

theorem not_atToken_of_closed (h : closed shape frames = .error e) : ¬ e.cause.AtToken := by
  rw [closed] at h
  split at h
  · cases h
  · next hclose =>
    cases h
    exact not_atToken_of_close hclose

/-- No sequence is open behind a whole type. -/
theorem not_extent_of_close {awaiting : Awaiting} {rest : List Frame}
    (h : close shape frames = .ok (awaiting, rest)) (bracket : Span) :
    awaiting ≠ .extent bracket := by
  induction frames generalizing shape with
  | nil => cases h; simp
  | cons frame frames ih =>
    cases frame with
    | pointer => exact ih h
    | elements extent => exact ih h
    | parens => cases h; simp
    | group fields names =>
      rw [close] at h
      split at h <;> cases h
      simp

theorem span_of_openType (h : openType frames token = .error e) : e.span = token.span := by
  rw [openType] at h
  split at h
  · cases h
  · cases h
  · cases h
  · split at h
    · cases h
    · split at h <;> cases h
      rfl
  · cases h
    rfl

theorem span_of_openSequence {bracket : Span} (h : openSequence bracket frames token = .error e) :
    e.span = token.span ∨ e.span = bracket.merge token.span := by
  rw [openSequence] at h
  split at h
  · cases h
  · split at h <;> cases h
    exact .inl rfl
  · cases h
    exact .inr rfl

theorem eq_error_of_map_taken {result : Except ReadError State}
    (h : result.map Progress.taken = .error e) : result = .error e := by
  cases result with
  | ok state => cases h
  | error _ =>
    cases h
    rfl

/-- An error at a token points at it; only behind a bracket does it start in front of it. -/
theorem span_of_take {awaiting : Awaiting} (h : take awaiting frames token = .error e)
    (hcause : e.cause.AtToken) :
    e.span = token.span ∨ ∃ bracket, awaiting = .extent bracket ∧
      e.span = bracket.merge token.span := by
  have hclosed {shape : Shape} {frames : List Frame}
      (h : (closed shape frames).map Progress.taken = .error e) : False :=
    not_atToken_of_closed (eq_error_of_map_taken h) hcause
  cases awaiting with
  | type => exact .inl (span_of_openType (eq_error_of_map_taken h))
  | extent bracket =>
    rcases span_of_openSequence (eq_error_of_map_taken h) with hspan | hspan
    · exact .inl hspan
    · exact .inr ⟨bracket, rfl, hspan⟩
  | commaOrType fields names =>
    rw [take] at h
    split at h
    · cases h
    · exact .inl (span_of_openType (eq_error_of_map_taken h))
  | nothing shape => cases h
  | member | closingBracket | openingBrace | entry | nextName | groupEnd | closingParen =>
    rw [take] at h
    split at h
    all_goals first
      | exact (hclosed h).elim
      | cases h <;> exact .inl rfl

theorem span_of_step {state : State} (h : state.step token = .error e)
    (hcause : e.cause.AtToken) :
    e.span = token.span ∨ ∃ bracket frames, state = .at (.extent bracket) frames ∧
      e.span = bracket.merge token.span := by
  cases state with
  | «at» awaiting frames =>
    rcases span_of_take h hcause with hspan | ⟨bracket, rfl, hspan⟩
    · exact .inl hspan
    · exact .inr ⟨bracket, frames, rfl, hspan⟩
  | afterName name span frames =>
    rw [State.step] at h
    split at h
    · cases h
    · split at h
      · next hclose =>
        rcases span_of_take h hcause with hspan | ⟨bracket, rfl, -⟩
        · exact .inl hspan
        · exact absurd rfl (not_extent_of_close hclose bracket)
      · next hclose =>
        cases h
        exact absurd hcause (not_atToken_of_close hclose)

theorem not_atToken_of_finish {state : State} (h : state.finish stop = .error e) :
    ¬ e.cause.AtToken := by
  have hawaiting {awaiting : Awaiting} (h : finish stop awaiting = .error e) :
      ¬ e.cause.AtToken := by
    cases awaiting <;> cases h <;> exact id
  cases state with
  | «at» awaiting frames => exact hawaiting h
  | afterName name span frames =>
    rw [State.finish] at h
    split at h
    · exact hawaiting h
    · next hclose =>
      cases h
      exact not_atToken_of_close hclose

/-- What a step that fails says of the tokens taken and of the one at fault. -/
theorem endsAt_of_step {state : State} {ts : List Token} (htook : state.Took ts)
    (h : state.step token = .error e) (hcause : e.cause.AtToken) : e.EndsAt ts token := by
  rcases span_of_step h hcause with hspan | ⟨bracket, frames, rfl, hspan⟩
  · exact .inl hspan
  · obtain ⟨us, _, rfl, -, rfl⟩ := htook
    exact .inr ⟨bracket, by simp, hspan⟩

end

/-! ## Runs -/

/-- A reading that fails at a token fails there whatever follows. -/
theorem run_error_decided {stop : Nat} {state : State} {ts tokens : List Token} {e : ReadError}
    (htook : state.Took ts) (h : run stop state tokens = .error e) (hcause : e.cause.AtToken) :
    ∃ before token after, tokens = before ++ token :: after ∧ e.EndsAt (ts ++ before) token ∧
      ∀ stop others, run stop state (before ++ token :: others) = .error e := by
  induction tokens generalizing ts state with
  | nil =>
    rw [run] at h
    cases hfinish : state.finish stop with
    | ok shape =>
      rw [hfinish] at h
      cases h
    | error _ =>
      rw [hfinish] at h
      cases h
      exact absurd hcause (not_atToken_of_finish hfinish)
  | cons first tokens ih =>
    have hstep : AccountsAt ts first (state.step first) := accountsAt_step htook
    rw [run] at h
    cases hnext : state.step first with
    | error _ =>
      rw [hnext] at h
      cases h
      refine ⟨[], first, tokens, rfl, ?_, ?_⟩
      · rw [List.append_nil]
        exact endsAt_of_step htook hnext hcause
      · intro stop others
        rw [List.nil_append, run, hnext]
    | ok progress =>
      rw [hnext] at h hstep
      cases progress with
      | complete shape => cases h
      | taken next =>
        obtain ⟨before, token, after, rfl, hspan, hothers⟩ := ih hstep h
        refine ⟨first :: before, token, after, rfl, ?_, ?_⟩
        · rwa [List.append_cons]
        · intro stop others
          rw [List.cons_append, run, hnext]
          exact hothers stop others

/-- The token at fault stops where the error does. -/
theorem ReadError.EndsAt.stop_eq {e : ReadError} {offset : Nat} {cs : List Char}
    {before after : List Token} {token : Token} (h : e.EndsAt before token)
    (htiles : Tiles offset cs (before ++ token :: after)) : e.span.stop = token.span.stop := by
  rcases h with hspan | ⟨bracket, hbracket, hspan⟩
  · rw [hspan]
  · obtain ⟨hbefore, hlength, -⟩ := htiles.around
    have hgap : bracket.stop ≤ token.span.start := hbefore _ hbracket
    rw [hspan]
    show max bracket.stop token.span.stop = token.span.stop
    omega

/-! ## Texts -/

section

variable {text : String} {e : ReadError}

theorem run_of_read (h : read text = .error e) (hcause : e.cause.AtToken) :
    run (byteLength text.toList) .start (tokens text) = .error e := by
  rw [read] at h
  split at h
  · cases h
  · cases h
    exact hcause.elim
  · next hrun =>
    cases h
    exact hrun

/-- The tokens of a text up to the error lead every reading to it. -/
theorem run_upTo (h : read text = .error e) (hcause : e.cause.AtToken) :
    (∃ token ∈ (upTo e.span.stop (tokens text)).getLast?, token.span.stop = e.span.stop) ∧
      ∀ stop others, run stop .start (upTo e.span.stop (tokens text) ++ others) = .error e := by
  have hstart : State.start.Took [] := Opened.nil
  obtain ⟨before, token, after, htokens, hends, hothers⟩ :=
    run_error_decided hstart (run_of_read h hcause) hcause
  have htiles := tiles_tokens text
  rw [htokens] at htiles ⊢
  have hstop := hends.stop_eq htiles
  rw [hstop, htiles.upTo_stop]
  refine ⟨⟨token, by simp, rfl⟩, fun stop others => ?_⟩
  rw [List.append_assoc]
  exact hothers stop others

/-- An error at a token is decided by the tokens up to it, the last of which stops where the error
does: a text that starts with these tokens, at the same bytes, fails with the same error. So does
what continues the text, unless the text ends with the token at fault and what is appended makes it
a longer one. -/
theorem read_error_decided (h : read text = .error e) (hcause : e.cause.AtToken) :
    (∃ token ∈ (upTo e.span.stop (tokens text)).getLast?, token.span.stop = e.span.stop) ∧
      (∀ other, upTo e.span.stop (tokens text) <+: tokens other → read other = .error e) ∧
      ∀ more, e.span.stop < byteLength text.toList ∨
          Between (tokens (text ++ more)) (byteLength text.toList) →
        read (text ++ more) = .error e := by
  obtain ⟨hlast, hrun⟩ := run_upTo h hcause
  have hother (other : String) (hleads : upTo e.span.stop (tokens text) <+: tokens other) :
      read other = .error e := by
    obtain ⟨others, hothers⟩ := hleads
    rw [read, ← hothers, hrun]
  refine ⟨hlast, hother, fun more hmore => hother (text ++ more) ?_⟩
  have hcontinued : tokens (text ++ more) = scan 0 (text.toList ++ more.toList) := by
    rw [tokens, String.toList_append]
  rw [hcontinued] at hmore ⊢
  rcases hmore with hinside | hbetween
  · have hupTo : upTo e.span.stop (scan 0 (text.toList ++ more.toList)) =
        upTo e.span.stop (tokens text) := by
      apply upTo_scan_append
      rwa [Nat.zero_add]
    rw [← hupTo]
    exact (tiles_scan 0 _).upTo_leads
  · rw [scan_cut hbetween]
    exact (tiles_tokens text).upTo_leads.trans (List.prefix_append _ _)

/-- A length that is a word. The error spans the bracket and the word, and neither what stands
behind them nor what is appended to the text makes a difference. -/
theorem read_error_decided_length :
    read "struct\x7bé [ x]T\x7d" = .error ⟨.invalidLength "x", ⟨10, 13⟩⟩ ∧
      read "struct\x7bé [ x map" = .error ⟨.invalidLength "x", ⟨10, 13⟩⟩ ∧
      ∀ more, read ("struct\x7bé [ x]T\x7d" ++ more) = .error ⟨.invalidLength "x", ⟨10, 13⟩⟩ := by
  have hread : read "struct\x7bé [ x]T\x7d" = .error ⟨.invalidLength "x", ⟨10, 13⟩⟩ :=
    readError?_eq_some_iff.mp (by decide +kernel)
  obtain ⟨-, hother, hmore⟩ := read_error_decided hread trivial
  refine ⟨hread, hother _ ?_, fun more => hmore more (.inl ?_)⟩
  · rw [← List.isPrefixOf_iff_prefix]
    decide +kernel
  · decide +kernel

end

end Unmarshal.TypeText
