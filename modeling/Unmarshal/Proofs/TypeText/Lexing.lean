import Unmarshal.Proofs.Words
import Unmarshal.TypeText.Token

/-!
# Lexemes of a text

What a text says, apart from where in it each token lies. A token ends where its class does, so a
word or a number is read whole if what follows it cannot continue it.
-/
namespace Unmarshal.Text

/-! ## Character classes

The classes that decide how a token starts have no character in common. -/

theorem inRanges_eq_false_of_apart {first second : List (Nat × Nat)} {c : Char}
    (apart : ∀ r ∈ first, ∀ s ∈ second, r.2 < s.1 ∨ s.2 < r.1) (h : inRanges first c = true) :
    inRanges second c = false := by
  obtain ⟨r, hr, hc⟩ := List.any_eq_true.mp h
  rw [inRanges, List.any_eq_false]
  intro s hs
  have := apart r hr s hs
  simp only [Bool.and_eq_true, decide_eq_true_eq] at hc ⊢
  omega

theorem isBlank_eq_false_of_continuesWord {c : Char} (h : continuesWord c = true) :
    isBlank c = false := by
  have hAlphabetic : ∀ r ∈ alphabeticRanges, ∀ s ∈ blankRanges, r.2 < s.1 ∨ s.2 < r.1 := by
    decide +kernel
  have hNumeric : ∀ r ∈ numericRanges, ∀ s ∈ blankRanges, r.2 < s.1 ∨ s.2 < r.1 := by
    decide +kernel
  simp only [continuesWord, startsWord, Bool.or_eq_true, beq_iff_eq] at h
  rcases h with (rfl | h) | h
  · decide
  · exact inRanges_eq_false_of_apart hAlphabetic h
  · exact inRanges_eq_false_of_apart hNumeric h

theorem startsWord_eq_false_of_isDigit {c : Char} (h : c.isDigit = true) :
    startsWord c = false := by
  have hDigit : inRanges [(0x30, 0x39)] c = true := by
    simpa [inRanges] using Char.isDigit_iff_toNat.mp h
  have hne : c ≠ '_' := by
    rintro rfl
    exact absurd h (by decide)
  have hAlphabetic : isAlphabetic c = false :=
    inRanges_eq_false_of_apart (by decide +kernel) hDigit
  simp [startsWord, hne, hAlphabetic]

theorem continuesNumber_of_isDigit {c : Char} (h : c.isDigit = true) :
    continuesNumber c = true := by
  simp [continuesNumber, Char.isAlphanum, h]

theorem continuesWord_of_continuesNumber {c : Char} (h : continuesNumber c = true) :
    continuesWord c = true := by
  have hletters : [(0x41, 0x5A), (0x61, 0x7A)] ⊆ alphabeticRanges :=
    List.Sublist.subset (List.isSublist_iff_sublist.mp (by decide +kernel))
  have hletter : ∀ r ∈ [(0x41, 0x5A), (0x61, 0x7A)], r.1 ≤ c.toNat → c.toNat ≤ r.2 →
      continuesWord c = true := by
    intro r hr hlow hhigh
    have halphabetic : isAlphabetic c = true :=
      List.any_eq_true.mpr ⟨r, hletters hr, by simp [hlow, hhigh]⟩
    simp [continuesWord, startsWord, halphabetic]
  simp only [continuesNumber, Char.isAlphanum, Bool.or_eq_true, beq_iff_eq] at h
  rcases h with (h | h) | rfl
  · obtain h | h := (Bool.or_eq_true c.isUpper c.isLower).mp h
    · have hbounds : 0x41 ≤ c.val ∧ c.val ≤ 0x5A := of_decide_eq_true h
      exact hletter _ (.head _) (UInt32.le_iff_toNat_le.mp hbounds.1)
        (UInt32.le_iff_toNat_le.mp hbounds.2)
    · obtain ⟨hlow, hhigh⟩ := (Bool.and_eq_true _ _).mp h
      exact hletter _ (.tail _ (.head _)) (UInt32.le_iff_toNat_le.mp (of_decide_eq_true hlow))
        (UInt32.le_iff_toNat_le.mp (of_decide_eq_true hhigh))
  · exact continuesWord_of_isDigit h
  · decide

end Unmarshal.Text

namespace Unmarshal.TypeText

open Text

/-- What the tokens of a text say. -/
def lexemes (cs : List Char) : List Lexeme := (scan 0 cs).map Token.lexeme

theorem map_lexeme_tokens (text : String) :
    (tokens text).map Token.lexeme = lexemes text.toList := rfl

/-- What a text says does not depend on where it starts. -/
theorem map_lexeme_scan (offset : Nat) (cs : List Char) :
    (scan offset cs).map Token.lexeme = lexemes cs := by
  have same : ∀ other, (scan offset cs).map Token.lexeme = (scan other cs).map Token.lexeme := by
    induction offset, cs using scan.induct with
    | case1 offset => intro other; simp [scan]
    | case2 offset c cs hb ih => intro other; simp only [scan, hb, if_true]; exact ih _
    | case3 offset c cs hb hs ih =>
      intro other
      simp only [scan, hb, hs, if_true, Bool.false_eq_true, if_false, List.map_cons]
      exact congrArg _ (ih _)
    | case4 offset c cs hb hs hd ih =>
      intro other
      simp only [scan, hb, hs, hd, if_true, Bool.false_eq_true, if_false, List.map_cons]
      exact congrArg _ (ih _)
    | case5 offset c cs hb hs hd ih =>
      intro other
      simp only [scan, hb, hs, hd, Bool.false_eq_true, if_false, List.map_cons]
      exact congrArg _ (ih _)
  exact same 0

@[simp] theorem lexemes_nil : lexemes [] = [] := by
  simp [lexemes, scan]

/-- What a text says, by its first character. -/
theorem lexemes_cons (c : Char) (cs : List Char) :
    lexemes (c :: cs) =
      if isBlank c then lexemes cs
      else if startsWord c then
        .word (String.ofList (c :: cs.takeWhile continuesWord)) ::
          lexemes (cs.dropWhile continuesWord)
      else if c.isDigit then
        .number (String.ofList (c :: cs.takeWhile continuesNumber)) ::
          lexemes (cs.dropWhile continuesNumber)
      else .mark c :: lexemes cs := by
  rw [lexemes, scan]
  split
  · exact map_lexeme_scan _ cs
  · split
    · exact congrArg _ (map_lexeme_scan _ _)
    · split
      · exact congrArg _ (map_lexeme_scan _ _)
      · exact congrArg _ (map_lexeme_scan _ cs)

/-- The marks that type expressions are written with. -/
def marks : List Char := ['*', '[', ']', '(', ')', '\x7b', '\x7d', ';', ',', '.']

theorem classes_of_mem_marks {c : Char} (h : c ∈ marks) :
    isBlank c = false ∧ continuesWord c = false ∧ startsWord c = false ∧ c.isDigit = false := by
  have all : (marks.all fun c => !isBlank c && !continuesWord c && !startsWord c && !c.isDigit) =
      true := by
    decide +kernel
  simpa [and_assoc] using List.all_eq_true.mp all c h

theorem lexemes_blank {c : Char} (cs : List Char) (h : isBlank c = true) :
    lexemes (c :: cs) = lexemes cs := by
  rw [lexemes_cons, if_pos h]

theorem lexemes_mark {c : Char} (cs : List Char) (h : c ∈ marks) :
    lexemes (c :: cs) = .mark c :: lexemes cs := by
  obtain ⟨hblank, -, hstart, hdigit⟩ := classes_of_mem_marks h
  simp [lexemes_cons, hblank, hstart, hdigit]

/-! ## Whole words and numbers -/

/-- The text goes on, if at all, with a character outside the class. -/
def StopsAt (continues : Char → Bool) (rest : List Char) : Prop :=
  ∀ c ∈ rest.head?, continues c = false

theorem stopsAt_mark {c : Char} (cs : List Char) (h : c ∈ marks) :
    StopsAt continuesWord (c :: cs) := by
  simpa [StopsAt] using (classes_of_mem_marks h).2.1

theorem stopsAt_blank {c : Char} (cs : List Char) (h : isBlank c = true) :
    StopsAt continuesWord (c :: cs) := by
  cases hc : continuesWord c with
  | false => simpa [StopsAt] using hc
  | true =>
    rw [isBlank_eq_false_of_continuesWord hc] at h
    cases h

section

variable {continues : Char → Bool} {cs rest : List Char}

theorem takeWhile_append_of_stopsAt (hcs : ∀ c ∈ cs, continues c = true)
    (hrest : StopsAt continues rest) : (cs ++ rest).takeWhile continues = cs := by
  rw [List.takeWhile_append_of_pos hcs]
  cases rest with
  | nil => simp
  | cons c rest => simp [hrest c rfl]

theorem dropWhile_append_of_stopsAt (hcs : ∀ c ∈ cs, continues c = true)
    (hrest : StopsAt continues rest) : (cs ++ rest).dropWhile continues = rest := by
  rw [List.dropWhile_append_of_pos hcs]
  cases rest with
  | nil => rfl
  | cons c rest => simp [hrest c rfl]

end

theorem lexemes_word {word : String} {rest : List Char} (h : isWord word = true)
    (hrest : StopsAt continuesWord rest) :
    lexemes (word.toList ++ rest) = .word word :: lexemes rest := by
  obtain ⟨c, cs, hl, hstart, hcs⟩ := isWord_eq_true_iff.mp h
  have hblank := isBlank_eq_false_of_continuesWord (continuesWord_of_startsWord hstart)
  rw [hl, List.cons_append, lexemes_cons, takeWhile_append_of_stopsAt hcs hrest,
    dropWhile_append_of_stopsAt hcs hrest, ← hl, String.ofList_toList]
  simp [hblank, hstart]

theorem lexemes_number {text : String} {rest : List Char} (hne : text.toList ≠ [])
    (hdigits : ∀ c ∈ text.toList, c.isDigit = true) (hrest : StopsAt continuesNumber rest) :
    lexemes (text.toList ++ rest) = .number text :: lexemes rest := by
  obtain ⟨c, cs, hl⟩ := List.exists_cons_of_ne_nil hne
  rw [hl, List.forall_mem_cons] at hdigits
  obtain ⟨hdigit, htail⟩ := hdigits
  have hcs : ∀ d ∈ cs, continuesNumber d = true :=
    fun d hd => continuesNumber_of_isDigit (htail d hd)
  have hblank := isBlank_eq_false_of_continuesWord (continuesWord_of_isDigit hdigit)
  have hstart := startsWord_eq_false_of_isDigit hdigit
  rw [hl, List.cons_append, lexemes_cons, takeWhile_append_of_stopsAt hcs hrest,
    dropWhile_append_of_stopsAt hcs hrest, ← hl, String.ofList_toList]
  simp [hblank, hstart, hdigit]

/-- The words that a text says are words. -/
theorem isWord_of_mem_lexemes {cs : List Char} {word : String} (h : .word word ∈ lexemes cs) :
    isWord word = true := by
  -- the induction is that of the scanner, which keeps an offset that plays no part here
  have offset : Nat := 0
  induction offset, cs using scan.induct with
  | case1 => simp at h
  | case2 offset c cs hb ih =>
    rw [lexemes_cons, if_pos hb] at h
    exact ih h
  | case3 offset c cs hb hs ih =>
    rw [lexemes_cons, if_neg hb, if_pos hs] at h
    rcases List.mem_cons.mp h with h | h
    · cases h
      refine isWord_eq_true_iff.mpr ⟨c, _, String.toList_ofList, hs, ?_⟩
      intro d hd
      exact List.all_eq_true.mp List.all_takeWhile d hd
    · exact ih h
  | case4 offset c cs hb hs hd ih =>
    rw [lexemes_cons, if_neg hb, if_neg hs, if_pos hd] at h
    exact ih (by simpa using h)
  | case5 offset c cs hb hs hd ih =>
    rw [lexemes_cons, if_neg hb, if_neg hs, if_neg hd] at h
    exact ih (by simpa using h)

end Unmarshal.TypeText
