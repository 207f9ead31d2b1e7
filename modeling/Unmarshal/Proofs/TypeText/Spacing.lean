import Unmarshal.Proofs.TypeText.Cuts
import Unmarshal.Proofs.TypeText.Faults
import Unmarshal.Proofs.TypeText.Relocation

/-!
# Blanks between tokens

Blanks between two tokens, in front of the first or behind the last make no difference: the text is
the same type, or fails for the same reason at the same tokens, which lie further back by the number
of bytes put in front of them.
-/
namespace Unmarshal.Text

/-- Where a span lies once `count` bytes have been put into the text at byte `offset`. -/
def Span.spread (offset count : Nat) (s : Span) : Span :=
  ⟨if s.start < offset then s.start else s.start + count,
    if s.stop ≤ offset then s.stop else s.stop + count⟩

theorem Span.spread_merge (offset count : Nat) (s t : Span) :
    (s.merge t).spread offset count = (s.spread offset count).merge (t.spread offset count) := by
  simp only [spread, merge, mk.injEq]
  constructor <;> grind

/-- Spans keep their order. -/
theorem Span.spread_start_le (offset count : Nat) (s t : Span) :
    (s.spread offset count).start ≤ (t.spread offset count).start ↔ s.start ≤ t.start := by
  simp only [spread]
  grind

theorem Span.spread_stop_le (offset count : Nat) (s t : Span) :
    (s.spread offset count).stop ≤ (t.spread offset count).stop ↔ s.stop ≤ t.stop := by
  simp only [spread]
  grind

end Unmarshal.Text

namespace Unmarshal.TypeText

open Text

/-! ## Tokens of a text with blanks put in -/

/-- A span `count` bytes further back. -/
def shift (count : Nat) (s : Span) : Span := ⟨s.start + count, s.stop + count⟩

private theorem scan_shift_cons {count offset length : Nat} {cs : List Char} (lexeme : Lexeme)
    (hrest : scan (offset + length + count) cs =
      (scan (offset + length) cs).map (Token.relocate (shift count))) :
    ⟨lexeme, ⟨offset + count, offset + count + length⟩⟩ :: scan (offset + count + length) cs =
      (⟨lexeme, ⟨offset, offset + length⟩⟩ :: scan (offset + length) cs).map
        (Token.relocate (shift count)) := by
  rw [List.map_cons, ← hrest, Nat.add_right_comm offset count length]
  rfl

/-- Where a text starts moves its tokens and changes nothing else. -/
theorem scan_shift (count offset : Nat) (cs : List Char) :
    scan (offset + count) cs = (scan offset cs).map (Token.relocate (shift count)) := by
  induction offset, cs using scan.induct with
  | case1 offset => simp [scan]
  | case2 offset c cs hb ih =>
    rw [scan, scan, if_pos hb, if_pos hb, ← ih, Nat.add_right_comm]
  | case3 offset c cs hb hs ih =>
    rw [scan, scan, if_neg hb, if_neg hb, if_pos hs, if_pos hs]
    exact scan_shift_cons _ ih
  | case4 offset c cs hb hs hd ih =>
    rw [scan, scan, if_neg hb, if_neg hb, if_neg hs, if_neg hs, if_pos hd, if_pos hd]
    exact scan_shift_cons _ ih
  | case5 offset c cs hb hs hd ih =>
    rw [scan, scan, if_neg hb, if_neg hb, if_neg hs, if_neg hs, if_neg hd, if_neg hd]
    exact scan_shift_cons _ ih

/-- Blanks at a byte that lies inside no token. -/
theorem scan_spread {front back blanks : List Char}
    (hcut : Between (scan 0 (front ++ back)) (byteLength front))
    (hblanks : ∀ c ∈ blanks, isBlank c = true) :
    scan 0 (front ++ (blanks ++ back)) = (scan 0 (front ++ back)).map
      (Token.relocate (Span.spread (byteLength front) (byteLength blanks))) := by
  have hspread : Between (scan 0 (front ++ (blanks ++ back))) (byteLength front) := by
    cases blanks with
    | nil => exact hcut
    | cons c blanks => exact between_of_blank (hblanks c (.head _))
  rw [scan_cut hspread, scan_cut hcut, scan_blanks hblanks, scan_shift, List.map_append]
  congr 1
  · apply (List.map_id _).symm.trans
    apply List.map_congr_left
    intro token htoken
    have hbounds := (tiles_scan 0 front).bounds token htoken
    have hstart : token.span.start < byteLength front := by omega
    have hstop : token.span.stop ≤ byteLength front := by omega
    simp [Token.relocate, Span.spread, hstart, hstop]
  · apply List.map_congr_left
    intro token htoken
    have hbounds := (tiles_scan (byteLength front) back).bounds token htoken
    have hstart : ¬ token.span.start < byteLength front := by omega
    have hstop : ¬ token.span.stop ≤ byteLength front := by omega
    simp [Token.relocate, Span.spread, shift, hstart, hstop]

/-! ## What an error points at -/

/-- The tokens that lie in the span. -/
def within (s : Span) (ts : List Token) : List Token :=
  ts.filter fun token => decide (s.start ≤ token.span.start ∧ token.span.stop ≤ s.stop)

theorem within_congr {s t : Span} {ts : List Token}
    (h : ∀ token ∈ ts, (s.start ≤ token.span.start ∧ token.span.stop ≤ s.stop) ↔
      (t.start ≤ token.span.start ∧ token.span.stop ≤ t.stop)) : within s ts = within t ts := by
  apply List.filter_congr
  intro token htoken
  exact decide_eq_decide.mpr (h token htoken)

theorem within_spread (offset count : Nat) (s : Span) (ts : List Token) :
    within (s.spread offset count) (ts.map (Token.relocate (Span.spread offset count))) =
      (within s ts).map (Token.relocate (Span.spread offset count)) := by
  rw [within, List.filter_map, within]
  congr 1
  apply List.filter_congr
  intro token _
  simp only [Function.comp_apply, relocate_span, Span.spread_start_le, Span.spread_stop_le]

/-- The error of a text of `stop` bytes, and that of the text with `count` bytes of blanks at byte
`offset`. The input behind a whole type still starts with the same token, and says the same. -/
inductive ReadError.Spreads (offset count stop : Nat) : ReadError → ReadError → Prop where
  | moved {cause : Cause} {span : Span} (hcause : ∀ rest, cause ≠ .trailingInput rest)
      (hspan : span.start < span.stop) :
      Spreads offset count stop ⟨cause, span⟩ ⟨cause, span.spread offset count⟩
  | ended (expected : Expectation) :
      Spreads offset count stop ⟨.unexpectedEnd expected, .point stop⟩
        ⟨.unexpectedEnd expected, .point (stop + count)⟩
  | trailing {rest rest' : String} {first : Token} {others : List Lexeme}
      (hrest : lexemes rest.toList = first.lexeme :: others)
      (hrest' : lexemes rest'.toList = first.lexeme :: others) :
      Spreads offset count stop ⟨.trailingInput rest, ⟨first.span.start, stop⟩⟩
        ⟨.trailingInput rest', ⟨(first.span.spread offset count).start, stop + count⟩⟩

/-- No token lies at the end of the text. -/
theorem within_point_end {cs : List Char} {ts : List Token} (htiles : Tiles 0 cs ts) :
    within (.point (byteLength cs)) ts = [] := by
  apply List.filter_eq_nil_iff.mpr
  intro token htoken
  have hbounds := htiles.bounds token htoken
  rw [decide_eq_true_eq]
  simp only [Span.point]
  omega

/-- The error points at the same tokens. -/
theorem ReadError.Spreads.within_eq {offset count : Nat} {cs cs' : List Char} {ts : List Token}
    {e e' : ReadError} (h : e.Spreads offset count (byteLength cs) e') (htiles : Tiles 0 cs ts)
    (htiles' : Tiles 0 cs' (ts.map (Token.relocate (Span.spread offset count))))
    (hlength : byteLength cs' = byteLength cs + count) :
    within e'.span (ts.map (Token.relocate (Span.spread offset count))) =
      (within e.span ts).map (Token.relocate (Span.spread offset count)) := by
  cases h with
  | moved => exact within_spread ..
  | ended expected =>
    simp only [← hlength]
    rw [within_point_end htiles, within_point_end htiles', List.map_nil]
  | @trailing rest rest' first others hrest hrest' =>
    rw [← within_spread]
    apply within_congr
    rw [List.forall_mem_map]
    intro token htoken
    have hinside := (htiles.bounds token htoken).2.2
    have hinside' := (htiles'.bounds _ (List.mem_map_of_mem htoken)).2.2
    have hstop := Span.spread_stop_le offset count token.span ⟨first.span.start, byteLength cs⟩
    rw [relocate_span] at hinside' ⊢
    simp only [Span.spread] at hinside' hstop ⊢
    grind

@[simp] theorem map_lexeme_relocate (f : Span → Span) (ts : List Token) :
    (ts.map (Token.relocate f)).map Token.lexeme = ts.map Token.lexeme := by
  simp [Function.comp_def]

theorem lexemes_blanks {cs blanks : List Char} (hblanks : ∀ c ∈ blanks, isBlank c = true) :
    lexemes (cs ++ blanks) = lexemes cs := by
  have hcut : Between (scan 0 (cs ++ [])) (byteLength cs) := by
    intro token htoken
    have hbounds := (tiles_scan 0 (cs ++ [])).bounds token htoken
    rw [List.append_nil] at hbounds
    omega
  have hspread := congrArg (List.map Token.lexeme) (scan_spread hcut hblanks)
  rwa [map_lexeme_relocate, List.append_nil, List.append_nil] at hspread

/-- What stands behind tokens, without the blanks at its end, says what the tokens behind say. -/
theorem lexemes_rest {cs : List Char} {before after : List Token} {token : Token}
    (h : scan 0 cs = before ++ token :: after) :
    lexemes (trimEnd (dropBytes token.span.start cs)) =
      token.lexeme :: after.map Token.lexeme := by
  obtain ⟨front, back, rfl, hstart, -, hback⟩ := scan_split h
  obtain ⟨blanks, hblanks, htrim⟩ := exists_eq_trimEnd_append back
  rw [hstart, dropBytes_byteLength, ← lexemes_blanks hblanks, ← htrim,
    ← map_lexeme_scan (byteLength front), hback, List.map_cons]

theorem Fault.span_lt {offset : Nat} {cs : List Char} {ts : List Token} {e : ReadError}
    (h : Fault ts e) (htiles : Tiles offset cs ts) : e.span.start < e.span.stop := by
  cases h with
  | unexpected expected h => exact (htiles.bounds _ h).2.1
  | foreign hword h => exact (htiles.bounds _ h).2.1
  | @tooLong before after bracket token text hts htoken =>
    exact (htiles.bounds token (by simp [hts])).2.1
  | @noLength before after bracket token hts htoken =>
    have hbracket := (htiles.bounds ⟨.mark '[', bracket⟩ (by simp [hts])).2.1
    show min bracket.start token.span.start < max bracket.stop token.span.stop
    simp only at hbracket
    omega
  | duplicate h => exact (htiles.bounds _ h.mem).2.1

theorem Fault.ne_trailing {ts : List Token} {e : ReadError} (h : Fault ts e) (rest : String) :
    e.cause ≠ .trailingInput rest := by
  cases h <;> simp

theorem EndFault.span_eq {stop : Nat} {ts : List Token} {e : ReadError} (h : EndFault stop ts e)
    (hdot : ¬ EndsInDot ts) : e.span = .point stop := by
  cases h with
  | missing => rfl
  | member hts hlast => exact absurd ⟨_, by simp [hts], hlast⟩ hdot

theorem endsInDot_of_relocate {f : Span → Span} {ts : List Token}
    (h : EndsInDot (ts.map (Token.relocate f))) : EndsInDot ts := by
  obtain ⟨_, hlast, hdot⟩ := h
  rw [List.getLast?_map] at hlast
  obtain ⟨token, htoken, rfl⟩ := Option.map_eq_some_iff.mp hlast
  exact ⟨token, htoken, hdot⟩

/-! ## Readings -/

theorem run_spreads {offset : Nat} (count : Nat) {cs : List Char} {ts : List Token} {e : ReadError}
    (htiles : Tiles 0 cs ts) (h : run (byteLength cs) .start ts = .error e) :
    ∃ e', run (byteLength cs + count) .start
        (ts.map (Token.relocate (Span.spread offset count))) = .error e' ∧
      e.Spreads offset count (byteLength cs) e' := by
  have hmoved : Corresponds (Span.spread offset count) (byteLength cs) (byteLength cs + count)
      (run (byteLength cs) .start ts) (run (byteLength cs + count) .start
        (ts.map (Token.relocate (Span.spread offset count)))) :=
    run_corresponds (Span.spread_merge offset count) _ _ .start ts
  have haccounts := accountsFor_start (byteLength cs) ts
  have haccounts' := accountsFor_start (byteLength cs + count)
    (ts.map (Token.relocate (Span.spread offset count)))
  rw [h] at hmoved haccounts
  rcases hmoved with hresult | ⟨expected, rfl, hresult⟩
  · rw [hresult] at haccounts'
    refine ⟨_, hresult, ?_⟩
    rcases haccounts with hfault | hend
    · exact .moved hfault.ne_trailing (hfault.span_lt htiles)
    · cases hend with
      | missing expected hdot =>
        rcases haccounts' with hfault | hend
        · cases hfault
        · have hspan := hend.span_eq fun hlast => hdot (endsInDot_of_relocate hlast)
          simp only [ReadError.relocate] at hspan ⊢
          rw [hspan]
          exact .ended expected
      | @member before name span dot hts hdot =>
        have hname := (htiles.bounds ⟨.word name, span⟩ (by simp [hts])).2.1
        exact .moved (by simp) hname
  · exact ⟨_, hresult, .ended expected⟩

/-- A text whose tokens are those of another, further back, fails where the other does. -/
theorem read_spreads {text spaced : String} {offset count : Nat} {e : ReadError}
    (htokens : tokens spaced =
      (tokens text).map (Token.relocate (Span.spread offset count)))
    (hlength : byteLength spaced.toList = byteLength text.toList + count)
    (h : read text = .error e) :
    ∃ e', read spaced = .error e' ∧ e.Spreads offset count (byteLength text.toList) e' := by
  rw [read] at h
  split at h
  · cases h
  · next shape token after hrun =>
    cases h
    have hmoved : Corresponds (Span.spread offset count) (byteLength text.toList)
        (byteLength spaced.toList) (run (byteLength text.toList) .start (tokens text))
        (run (byteLength spaced.toList) .start (tokens spaced)) := by
      rw [htokens]
      exact run_corresponds (Span.spread_merge offset count) _ _ .start _
    have haccounts := accountsFor_start (byteLength text.toList) (tokens text)
    rw [hrun] at hmoved haccounts
    obtain ⟨before, hts, -⟩ := haccounts
    rw [hts, List.map_append, List.map_cons] at htokens
    have hrest' := lexemes_rest htokens
    rw [map_lexeme_relocate, ← String.toList_ofList (l := trimEnd _)] at hrest'
    have hrest := lexemes_rest hts
    rw [← String.toList_ofList (l := trimEnd _)] at hrest
    refine ⟨_, ?_, .trailing hrest hrest'⟩
    rw [read, hmoved, ← hlength]
    rfl
  · next hrun =>
    cases h
    obtain ⟨e', hresult, hspreads⟩ := run_spreads count (tiles_tokens text) hrun
    rw [← htokens, ← hlength] at hresult
    refine ⟨e', ?_, hspreads⟩
    rw [read, hresult]

/-- Blanks where no token is make no difference. The tokens are the same, further back; a text that
was a type is the same type; and one that was not fails for the same reason, at the same tokens. -/
theorem read_spaced {front back blanks : String}
    (hcut : Between (tokens (front ++ back)) (byteLength front.toList))
    (hblanks : ∀ c ∈ blanks.toList, isBlank c = true) :
    let moved := Token.relocate
      (Span.spread (byteLength front.toList) (byteLength blanks.toList))
    tokens (front ++ blanks ++ back) = (tokens (front ++ back)).map moved ∧
      (∀ shape, read (front ++ blanks ++ back) = .ok shape ↔ read (front ++ back) = .ok shape) ∧
      ∀ e, read (front ++ back) = .error e →
        ∃ e', read (front ++ blanks ++ back) = .error e' ∧
          e.Spreads (byteLength front.toList) (byteLength blanks.toList)
            (byteLength (front ++ back).toList) e' ∧
          within e'.span (tokens (front ++ blanks ++ back)) =
            (within e.span (tokens (front ++ back))).map moved := by
  intro moved
  have htokens : tokens (front ++ blanks ++ back) = (tokens (front ++ back)).map moved := by
    rw [tokens, String.toList_append] at hcut
    simp only [tokens, String.toList_append, List.append_assoc]
    exact scan_spread hcut hblanks
  have hlength : byteLength (front ++ blanks ++ back).toList =
      byteLength (front ++ back).toList + byteLength blanks.toList := by
    simp only [String.toList_append, byteLength_append]
    omega
  refine ⟨htokens, fun shape => ?_, fun e h => ?_⟩
  · rw [read_eq_ok_iff, read_eq_ok_iff, htokens, map_lexeme_relocate]
  · obtain ⟨e', hread, hspreads⟩ := read_spreads htokens hlength h
    refine ⟨e', hread, hspreads, ?_⟩
    have htiles' := tiles_tokens (front ++ blanks ++ back)
    rw [htokens] at htiles' ⊢
    exact hspreads.within_eq (tiles_tokens _) htiles' hlength

/-- A bracket and the word behind it. The error spans them with whatever blanks are between. -/
theorem read_spaced_bracket :
    read ("[" ++ "é]T") = .error ⟨.invalidLength "é", ⟨0, 3⟩⟩ ∧
      read ("[" ++ "\t " ++ "é]T") = .error ⟨.invalidLength "é", ⟨0, 5⟩⟩ := by
  have hread : read ("[" ++ "é]T") = .error ⟨.invalidLength "é", ⟨0, 3⟩⟩ :=
    readError?_eq_some_iff.mp (by decide +kernel)
  have hcut : Between (tokens ("[" ++ "é]T")) (byteLength "[".toList) := by
    decide +kernel
  have hblanks : ∀ c ∈ "\t ".toList, isBlank c = true :=
    List.all_eq_true.mp (by decide +kernel)
  obtain ⟨-, -, herrors⟩ := read_spaced hcut hblanks
  obtain ⟨e', hspaced, hspreads, -⟩ := herrors _ hread
  refine ⟨hread, ?_⟩
  cases hspreads with
  | moved => exact hspaced

end Unmarshal.TypeText
