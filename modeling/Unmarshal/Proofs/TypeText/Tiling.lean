import Unmarshal.Proofs.TypeText.Lexing

/-!
# Tokens tile the text

The tokens of a text and the blanks around them are the text. So the span of a token starts and
stops between two characters, and the bytes at it are what the token says; two neighbours together
cover nothing but themselves and blanks.
-/
namespace Unmarshal.Text

/-- Byte `offset` is where a character of the text starts, or where the text ends. -/
def IsBoundary (cs : List Char) (offset : Nat) : Prop :=
  ∃ before after, cs = before ++ after ∧ offset = byteLength before

theorem byteLength_pos {cs : List Char} (h : cs ≠ []) : 0 < byteLength cs := by
  cases cs with
  | nil => exact absurd rfl h
  | cons c cs =>
    have := c.utf8Size_pos
    rw [byteLength_cons]
    omega

namespace Span

/-- The span lies in the text and splits no character of it. -/
structure Fits (s : Span) (cs : List Char) : Prop where
  ordered : s.start ≤ s.stop
  inside : s.stop ≤ byteLength cs
  start : IsBoundary cs s.start
  stop : IsBoundary cs s.stop

/-- The characters of the text at the span are `inside`. -/
def Covers (s : Span) (cs inside : List Char) : Prop :=
  ∃ before after, cs = before ++ (inside ++ after) ∧
    s = ⟨byteLength before, byteLength before + byteLength inside⟩

theorem fits_point_end (cs : List Char) : (point (byteLength cs)).Fits cs where
  ordered := Nat.le_refl _
  inside := Nat.le_refl _
  start := ⟨cs, [], by simp, rfl⟩
  stop := ⟨cs, [], by simp, rfl⟩

section

variable {s : Span} {cs inside : List Char}

theorem Covers.fits (h : s.Covers cs inside) : s.Fits cs := by
  obtain ⟨before, after, rfl, rfl⟩ := h
  refine ⟨?_, ?_, ⟨before, inside ++ after, rfl, rfl⟩, ⟨before ++ inside, after, ?_, ?_⟩⟩
  · show byteLength before ≤ byteLength before + byteLength inside
    omega
  · show byteLength before + byteLength inside ≤ byteLength (before ++ (inside ++ after))
    simp only [byteLength_append]
    omega
  · rw [List.append_assoc]
  · rw [byteLength_append]

theorem Covers.slice_eq (h : s.Covers cs inside) : s.slice cs = inside := by
  obtain ⟨before, after, rfl, rfl⟩ := h
  exact slice_append before inside after

/-- A diagnostic underlines what the span covers, no more and no less. -/
theorem Covers.clamp_eq (h : s.Covers cs inside) (hne : inside ≠ []) :
    s.clamp (byteLength cs) = s := by
  apply clamp_of_inside
  · obtain ⟨before, after, rfl, rfl⟩ := h
    have := byteLength_pos hne
    show byteLength before < byteLength before + byteLength inside
    omega
  · exact h.fits.inside

/-- A span merged with one behind it. -/
theorem merge_eq {t : Span} (hs : s.start ≤ s.stop) (hgap : s.stop ≤ t.start)
    (ht : t.start ≤ t.stop) : s.merge t = ⟨s.start, t.stop⟩ := by
  have hmin : min s.start t.start = s.start := by omega
  have hmax : max s.stop t.stop = t.stop := by omega
  rw [merge, hmin, hmax]

end

end Span

end Unmarshal.Text

namespace Unmarshal.TypeText

open Text

/-- The characters that spell the token. -/
def Token.chars (token : Token) : List Char := token.lexeme.text.toList

/-- The text from byte `offset` on is the tokens, each at its span, and blanks in front of, between
and behind them. -/
inductive Tiles : Nat → List Char → List Token → Prop where
  | nil {offset : Nat} {blanks : List Char} (hblanks : ∀ c ∈ blanks, isBlank c = true) :
      Tiles offset blanks []
  | cons {offset : Nat} {blanks rest : List Char} {token : Token} {tokens : List Token}
      (hblanks : ∀ c ∈ blanks, isBlank c = true) (hne : token.chars ≠ [])
      (hsolid : ∀ c ∈ token.chars, isBlank c = false)
      (hspan : token.span =
        ⟨offset + byteLength blanks, offset + byteLength blanks + byteLength token.chars⟩)
      (h : Tiles token.span.stop rest tokens) :
      Tiles offset (blanks ++ (token.chars ++ rest)) (token :: tokens)

namespace Tiles

variable {offset : Nat} {cs : List Char} {before after ts : List Token} {token : Token}

theorem blank {c : Char} (hc : isBlank c = true) (h : Tiles (offset + c.utf8Size) cs ts) :
    Tiles offset (c :: cs) ts := by
  cases h with
  | nil hblanks => exact .nil (List.forall_mem_cons.mpr ⟨hc, hblanks⟩)
  | @cons _ blanks rest token tokens hblanks hne hsolid hspan h =>
    apply Tiles.cons (List.forall_mem_cons.mpr ⟨hc, hblanks⟩) hne hsolid _ h
    rw [hspan, byteLength_cons, Nat.add_assoc offset]

/-- A token at the very start of the text. -/
theorem lead {c : Char} {tail rest : List Char} (hcs : tail ++ rest = cs)
    (hchars : token.chars = c :: tail)
    (hspan : token.span = ⟨offset, offset + byteLength (c :: tail)⟩)
    (hsolid : ∀ d ∈ c :: tail, isBlank d = false)
    (h : Tiles (offset + byteLength (c :: tail)) rest ts) :
    Tiles offset (c :: cs) (token :: ts) := by
  rw [← hcs, ← List.cons_append, ← hchars, ← List.nil_append (token.chars ++ rest)]
  apply Tiles.cons (by simp)
  · simp [hchars]
  · rwa [hchars]
  · rw [hspan, hchars]
    rfl
  · rwa [hspan]

end Tiles

theorem tiles_scan (offset : Nat) (cs : List Char) : Tiles offset cs (scan offset cs) := by
  induction offset, cs using scan.induct with
  | case1 offset =>
    rw [scan]
    exact .nil (by simp)
  | case2 offset c cs hb ih =>
    rw [scan, if_pos hb]
    exact ih.blank hb
  | case3 offset c cs hb hs ih =>
    rw [scan, if_neg hb, if_pos hs]
    have hsolid : ∀ d ∈ c :: cs.takeWhile continuesWord, isBlank d = false := by
      intro d hd
      apply isBlank_eq_false_of_continuesWord
      rcases List.mem_cons.mp hd with rfl | hd
      · exact continuesWord_of_startsWord hs
      · exact List.all_eq_true.mp List.all_takeWhile d hd
    exact Tiles.lead List.takeWhile_append_dropWhile String.toList_ofList rfl hsolid ih
  | case4 offset c cs hb hs hd ih =>
    rw [scan, if_neg hb, if_neg hs, if_pos hd]
    have hsolid : ∀ d ∈ c :: cs.takeWhile continuesNumber, isBlank d = false := by
      intro d hd'
      apply isBlank_eq_false_of_continuesWord
      rcases List.mem_cons.mp hd' with rfl | hd'
      · exact continuesWord_of_isDigit hd
      · exact continuesWord_of_continuesNumber (List.all_eq_true.mp List.all_takeWhile d hd')
    exact Tiles.lead List.takeWhile_append_dropWhile String.toList_ofList rfl hsolid ih
  | case5 offset c cs hb hs hd ih =>
    rw [scan, if_neg hb, if_neg hs, if_neg hd]
    have hchars : (⟨.mark c, ⟨offset, offset + c.utf8Size⟩⟩ : Token).chars = [c] :=
      String.toList_singleton c
    exact Tiles.lead (List.nil_append cs) hchars rfl (by simpa using hb) ih

namespace Tiles

variable {offset : Nat} {cs : List Char} {before after ts : List Token} {token : Token}

/-- The tokens behind others tile what is left of the text. -/
theorem behind (h : Tiles offset cs (before ++ after)) :
    ∃ front back, cs = front ++ back ∧ Tiles (offset + byteLength front) back after := by
  induction before generalizing offset cs with
  | nil => exact ⟨[], cs, rfl, h⟩
  | cons token before ih =>
    cases h with
    | @cons _ blanks rest _ _ hblanks hne hsolid hspan h =>
      obtain ⟨front, back, rfl, hback⟩ := ih h
      refine ⟨blanks ++ (token.chars ++ front), back, by simp, ?_⟩
      rw [hspan] at hback
      simpa only [byteLength_append, Nat.add_assoc] using hback

/-- A token stands in the text at its span, and the tokens behind it from there on. -/
theorem split (h : Tiles 0 cs (before ++ token :: after)) :
    ∃ front back, cs = front ++ (token.chars ++ back) ∧
      token.span = ⟨byteLength front, byteLength front + byteLength token.chars⟩ ∧
      token.chars ≠ [] ∧ (∀ c ∈ token.chars, isBlank c = false) ∧
      Tiles token.span.stop back after := by
  obtain ⟨front, back, rfl, hback⟩ := h.behind
  cases hback with
  | @cons _ blanks rest _ _ hblanks hne hsolid hspan h =>
    refine ⟨front ++ blanks, rest, by simp, ?_, hne, hsolid, h⟩
    rw [hspan, byteLength_append, Nat.zero_add]

theorem covers (h : Tiles 0 cs ts) (hmem : token ∈ ts) :
    token.span.Covers cs token.chars ∧ token.chars ≠ [] := by
  obtain ⟨before, after, rfl⟩ := List.append_of_mem hmem
  obtain ⟨front, back, hcs, hspan, hne, -, -⟩ := h.split
  exact ⟨⟨front, back, hcs, hspan⟩, hne⟩

/-- Two neighbours cover themselves and the blanks between them. -/
theorem covers_merge {first second : Token} (h : Tiles 0 cs (before ++ first :: second :: after)) :
    ∃ blanks, (∀ c ∈ blanks, isBlank c = true) ∧
      (first.span.merge second.span).Covers cs (first.chars ++ (blanks ++ second.chars)) := by
  obtain ⟨front, back, rfl, hfirst, -, -, hback⟩ := h.split
  cases hback with
  | @cons _ blanks rest _ _ hblanks hne hsolid hsecond h =>
    refine ⟨blanks, hblanks, front, rest, by simp, ?_⟩
    rw [hfirst] at hsecond
    have hmerge : first.span.merge second.span = ⟨first.span.start, second.span.stop⟩ := by
      apply Span.merge_eq <;> simp only [hfirst, hsecond] <;> omega
    rw [hmerge, hfirst, hsecond]
    simp only [byteLength_append, Nat.add_assoc]

/-- From the start of a token on, the text is the token and what stands behind it. -/
theorem dropBytes_start (h : Tiles 0 cs (before ++ token :: after)) :
    ∃ front back, cs = front ++ (token.chars ++ back) ∧ token.span.start = byteLength front ∧
      dropBytes token.span.start cs = token.chars ++ back ∧
      token.chars ≠ [] ∧ ∀ c ∈ token.chars, isBlank c = false := by
  obtain ⟨front, back, rfl, hspan, hne, hsolid, -⟩ := h.split
  refine ⟨front, back, rfl, by rw [hspan], ?_, hne, hsolid⟩
  rw [hspan]
  exact dropBytes_byteLength front _

end Tiles

theorem tiles_tokens (text : String) : Tiles 0 text.toList (tokens text) := tiles_scan 0 _

end Unmarshal.TypeText
