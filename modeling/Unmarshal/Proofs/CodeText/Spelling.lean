import Unmarshal.Code.Render
import Unmarshal.Proofs.CodeText.Token
import Unmarshal.Proofs.TypeText.RoundTrip

/-!
# Texts and their tokens

What the scanner makes of a text that is put together from parts. A part has its tokens wherever
what follows cannot continue its last word.
-/
namespace Unmarshal.CodeText

open Text TypeText

/-! ## Single tokens -/

theorem isBlank_of_separates {c : Char} (h : separates c = true) : isBlank c = true := by
  simp only [separates, Bool.or_eq_true, beq_iff_eq] at h
  rcases h with (rfl | rfl) | rfl <;> decide

theorem separates_eq_false {c : Char} (h : isBlank c = false) : separates c = false := by
  cases hc : separates c with
  | false => rfl
  | true =>
    rw [isBlank_of_separates hc] at h
    cases h

theorem scan_nil : scan [] = some [] := by
  rw [scan]

theorem scan_blank {c : Char} (cs : List Char) (h : separates c = true) :
    scan (c :: cs) = scan cs := by
  rw [scan, if_pos h]

theorem scan_word {c : Char} {cs rest : List Char} (hstart : startsWord c = true)
    (hcs : ∀ d ∈ cs, continuesWord d = true) (hrest : StopsAt continuesWord rest) :
    scan (c :: (cs ++ rest)) =
      (scan rest).map (.plain (.word (String.ofList (c :: cs))) :: ·) := by
  have hseparates := separates_eq_false
    (isBlank_eq_false_of_continuesWord (continuesWord_of_startsWord hstart))
  rw [scan, takeWhile_append_of_stopsAt hcs hrest, dropWhile_append_of_stopsAt hcs hrest]
  simp [hseparates, hstart]

theorem scan_number {c : Char} {cs rest : List Char} (hdigit : c.isDigit = true)
    (hcs : ∀ d ∈ cs, continuesNumber d = true) (hrest : StopsAt continuesNumber rest) :
    scan (c :: (cs ++ rest)) =
      (scan rest).map (.plain (.number (String.ofList (c :: cs))) :: ·) := by
  have hseparates := separates_eq_false
    (isBlank_eq_false_of_continuesWord (continuesWord_of_isDigit hdigit))
  have hstart := startsWord_eq_false_of_isDigit hdigit
  rw [scan, takeWhile_append_of_stopsAt hcs hrest, dropWhile_append_of_stopsAt hcs hrest]
  simp [hseparates, hstart, hdigit]

theorem scan_mark {c : Char} (cs : List Char) (h : c ∈ marks) :
    scan (c :: cs) = (scan cs).map (.plain (.mark c) :: ·) := by
  obtain ⟨hblank, -, hstart, hdigit⟩ := classes_of_mem_marks h
  have hseparates := separates_eq_false hblank
  have hquote : c ≠ '"' := by
    rintro rfl
    exact absurd h (by decide)
  have hsign : readSign c cs = none := by
    simp only [marks, List.mem_cons, List.not_mem_nil, or_false] at h
    rcases h with rfl | rfl | rfl | rfl | rfl | rfl | rfl | rfl | rfl | rfl <;> rfl
  rw [scan]
  simp only [hseparates, hstart, hdigit, hquote, h, Bool.false_eq_true, if_false, or_true,
    if_true]
  split
  · next op rest hop => rw [hsign] at hop; cases hop
  · rfl

/-- The classes of the characters that are no lexeme of a type. -/
private theorem classes_of_mem_signs {c : Char} (h : c ∈ ['"', '=', '!', '&', '|', '<']) :
    separates c = false ∧ startsWord c = false ∧ c.isDigit = false := by
  have all : (['"', '=', '!', '&', '|', '<'].all fun c =>
      !separates c && !startsWord c && !c.isDigit) = true := by
    decide +kernel
  simpa [and_assoc] using List.all_eq_true.mp all c h

/-- What starts with none of the classes of a type expression. -/
private theorem scan_other {c : Char} (cs : List Char) (h : c ∈ ['=', '!', '&', '|', '<']) :
    scan (c :: cs) =
      match readSign c cs with
      | some (op, rest) => (scan rest).map (.sign op :: ·)
      | none => if c = '!' then (scan cs).map (.plain (.mark c) :: ·) else none := by
  obtain ⟨hseparates, hstart, hdigit⟩ := classes_of_mem_signs (List.mem_cons_of_mem _ h)
  have hquote : c ≠ '"' ∧ c ∉ marks := by
    simp only [List.mem_cons, List.not_mem_nil, or_false] at h
    rcases h with rfl | rfl | rfl | rfl | rfl <;> decide
  rw [scan]
  simp only [hseparates, hstart, hdigit, hquote.1, hquote.2, Bool.false_eq_true, if_false, or_false]
  split
  · next op rest hop => rw [hop]
  · next hnone => rw [hnone]

/-- Not before an equals sign, with which it would be an operator. -/
theorem scan_not {cs : List Char} (h : cs.head? ≠ some '=') :
    scan ('!' :: cs) = (scan cs).map (.plain (.mark '!') :: ·) := by
  have hsign : readSign '!' cs = none := by
    cases cs with
    | nil => rfl
    | cons c cs =>
      have hne : c ≠ '=' := by simpa using h
      simp [readSign, hne]
  rw [scan_other cs (by decide), hsign]
  rfl

theorem scan_sign (op : BinaryOp) (rest : List Char) :
    scan (op.sign.toList ++ rest) = (scan rest).map (.sign op :: ·) := by
  cases op with
  | lt => exact scan_other rest (by decide)
  | eq => exact scan_other ('=' :: rest) (by decide)
  | ne => exact scan_other ('=' :: rest) (by decide)
  | and => exact scan_other ('&' :: rest) (by decide)
  | or => exact scan_other ('|' :: rest) (by decide)

/-- What is written for a character of a literal is read as that character. -/
private theorem readText_escaped_append (c : Char) (cs : List Char) :
    readText (Expr.escaped c ++ cs) = (readText cs).map fun read => (c :: read.1, read.2) := by
  by_cases h : c ∈ ['"', '\\', '\n', '\t']
  · simp only [List.mem_cons, List.not_mem_nil, or_false] at h
    rcases h with rfl | rfl | rfl | rfl <;>
      cases hread : readText cs <;> simp [Expr.escaped, readText, unescape?, hread]
  · have hplain : Expr.escaped c = [c] := by simp_all [Expr.escaped]
    rw [hplain, List.singleton_append, readText]
    · cases readText cs <;> rfl
    all_goals simp_all

/-- A literal ends where it should, and says what was escaped. -/
theorem readText_escaped (text rest : List Char) :
    readText (text.flatMap Expr.escaped ++ '"' :: rest) = some (text, rest) := by
  induction text with
  | nil => rfl
  | cons c text ih =>
    rw [List.flatMap_cons, List.append_assoc, readText_escaped_append, ih]
    rfl

theorem scan_literal (text : String) (rest : List Char) :
    scan ((Expr.literal text).toList ++ rest) = (scan rest).map (.literal text :: ·) := by
  obtain ⟨hseparates, hstart, hdigit⟩ := classes_of_mem_signs (c := '"') (by decide)
  have hread := readText_escaped text.toList rest
  simp only [Expr.literal, String.toList_append, String.toList_ofList, List.append_assoc]
  show scan ('"' :: (text.toList.flatMap Expr.escaped ++ '"' :: rest)) = _
  rw [scan]
  simp only [hseparates, hstart, hdigit, Bool.false_eq_true, if_false, if_true]
  split
  · next found behind hfound =>
    rw [hread] at hfound
    cases hfound
    rw [String.ofList_toList]
  · next hnone => rw [hread] at hnone; cases hnone

/-! ## Texts of several tokens -/

/-- The text has these tokens wherever it is not continued as a word. -/
def Spells (text : List Char) (ts : List Token) : Prop :=
  ∀ rest, StopsAt continuesWord rest → scan (text ++ rest) = (scan rest).map (ts ++ ·)

theorem Spells.scan {text : List Char} {ts : List Token} (h : Spells text ts) :
    scan text = some ts := by
  have hall := h [] (by simp [StopsAt])
  rw [List.append_nil, scan_nil] at hall
  simpa using hall

theorem Spells.nil : Spells [] [] := by
  intro rest _
  simp

theorem Spells.append {first second : List Char} {ts us : List Token} (h : Spells first ts)
    (hstop : ∀ rest, StopsAt continuesWord rest → StopsAt continuesWord (second ++ rest))
    (k : Spells second us) : Spells (first ++ second) (ts ++ us) := by
  intro rest hrest
  rw [List.append_assoc, h _ (hstop rest hrest), k rest hrest, Option.map_map]
  simp [Function.comp_def]

theorem Spells.word {word : String} (h : isWord word = true) :
    Spells word.toList [.plain (.word word)] := by
  intro rest hrest
  obtain ⟨c, cs, hl, hstart, hcs⟩ := isWord_eq_true_iff.mp h
  rw [hl, List.cons_append, scan_word hstart hcs hrest, ← hl, String.ofList_toList]
  rfl

theorem Spells.literal (text : String) : Spells (Expr.literal text).toList [.literal text] := by
  intro rest _
  exact scan_literal text rest

theorem stopsAt_number {rest : List Char} (h : StopsAt continuesWord rest) :
    StopsAt continuesNumber rest := by
  intro c hc
  cases hnumber : continuesNumber c with
  | false => rfl
  | true => rw [← h c hc, continuesWord_of_continuesNumber hnumber]

theorem Spells.number (n : Nat) : Spells (toString n).toList [.plain (.number (toString n))] := by
  intro rest hrest
  have hdigits : ∀ c ∈ (toString n).toList, c.isDigit = true := fun c => isDigit_of_mem_toString
  have hne : (toString n).toList ≠ [] := by
    rw [Nat.toString_eq_repr, Nat.toList_repr]
    exact Nat.toDigits_ne_nil
  obtain ⟨c, cs, hl⟩ := List.exists_cons_of_ne_nil hne
  rw [hl, List.forall_mem_cons] at hdigits
  have hcs : ∀ d ∈ cs, continuesNumber d = true :=
    fun d hd => continuesNumber_of_isDigit (hdigits.2 d hd)
  rw [hl, List.cons_append, scan_number hdigits.1 hcs (stopsAt_number hrest), ← hl,
    String.ofList_toList]
  rfl

theorem Spells.blank {text : List Char} {ts : List Token} (h : Spells text ts) :
    Spells (' ' :: text) ts := by
  intro rest hrest
  rw [List.cons_append, scan_blank _ (by decide), h rest hrest]

theorem Spells.mark {c : Char} {text : List Char} {ts : List Token} (h : Spells text ts)
    (hc : c ∈ marks) : Spells (c :: text) (.plain (.mark c) :: ts) := by
  intro rest hrest
  rw [List.cons_append, scan_mark _ hc, h rest hrest, Option.map_map]
  rfl

theorem Spells.sign {text : List Char} {ts : List Token} (h : Spells text ts) (op : BinaryOp) :
    Spells (op.sign.toList ++ text) (.sign op :: ts) := by
  intro rest hrest
  rw [List.append_assoc, scan_sign, h rest hrest, Option.map_map]
  rfl

theorem Spells.then_mark {c : Char} {first second : List Char} {ts us : List Token}
    (h : Spells first ts) (k : Spells second us) (hc : c ∈ marks) :
    Spells (first ++ c :: second) (ts ++ .plain (.mark c) :: us) :=
  h.append (fun _ _ => stopsAt_mark _ hc) (k.mark hc)

theorem Spells.then_blank {first second : List Char} {ts us : List Token}
    (h : Spells first ts) (k : Spells second us) : Spells (first ++ ' ' :: second) (ts ++ us) :=
  h.append (fun _ _ => stopsAt_blank _ (by decide)) k.blank

/-- A text whose first token is no sign does not start with one. -/
theorem Spells.head?_append_ne {text : List Char} {t : Token} {ts : List Token}
    (h : Spells text (t :: ts)) (ht : t ≠ .sign .eq) (rest : List Char) :
    (text ++ rest).head? ≠ some '=' := by
  have hscan := h.scan
  cases text with
  | nil =>
    rw [scan_nil] at hscan
    cases hscan
  | cons c cs =>
    intro hc
    cases hc
    rw [scan_other cs (by decide)] at hscan
    cases hsign : readSign '=' cs with
    | none => simp [hsign] at hscan
    | some read =>
      obtain ⟨op, behind⟩ := read
      have hop : op = .eq := by
        unfold readSign at hsign
        split at hsign <;> grind
      rw [hsign, hop] at hscan
      obtain ⟨us, -, hhead⟩ := Option.map_eq_some_iff.mp hscan
      exact ht (List.cons.inj hhead).1.symm

theorem Spells.not {text : List Char} {t : Token} {ts : List Token} (h : Spells text (t :: ts))
    (ht : t ≠ .sign .eq) : Spells ('!' :: text) (.plain (.mark '!') :: t :: ts) := by
  intro rest hrest
  rw [List.cons_append, scan_not (h.head?_append_ne ht rest), h rest hrest, Option.map_map]
  rfl

/-! ## Texts of types -/

/-- A lexeme that types are written with. -/
def isWritten : Lexeme → Bool
  | .mark c => marks.contains c
  | _ => true

theorem isWritten_of_derives {ts : List Lexeme} {shape : Shape} (h : Derives ts shape) :
    ts.all isWritten = true := by
  have hnames : ∀ names : List String, (moreNames names).all isWritten = true := by
    intro names
    rw [moreNames, List.all_flatMap, List.all_eq_true]
    intro name _
    rfl
  induction h using Derives.rec (motive_2 := fun ts _ _ => ts.all isWritten = true) with
  | none => rfl
  | _ =>
    simp only [List.all_cons, List.all_append, List.all_nil, Bool.and_true, *]
    rfl

/-- A text whose blanks may all stand between the tokens of an expression. -/
def spaced (text : List Char) : Bool := text.all fun c => !isBlank c || separates c

@[simp] theorem spaced_append (first second : List Char) :
    spaced (first ++ second) = (spaced first && spaced second) := by
  rw [spaced, List.all_append]
  rfl

theorem spaced_word {cs : List Char} (h : ∀ c ∈ cs, continuesWord c = true) :
    spaced cs = true := by
  refine List.all_eq_true.mpr fun c hc => ?_
  rw [isBlank_eq_false_of_continuesWord (h c hc)]
  rfl

theorem spaced_intercalate {texts : List String} (h : ∀ text ∈ texts, spaced text.toList = true) :
    spaced ("; ".intercalate texts).toList = true := by
  have hseparator : spaced "; ".toList = true := by decide +kernel
  induction texts with
  | nil => rfl
  | cons text texts ih =>
    have htext := h text (.head _)
    have hothers := ih fun other hother => h other (.tail _ hother)
    cases texts with
    | nil => simpa using htext
    | cons other texts =>
      simp only [String.intercalate_cons_cons, String.toList_append, spaced_append, htext,
        hseparator, hothers, Bool.and_self]

theorem spaced_render {shape : Shape} (h : shape.WellFormed) :
    spaced shape.render.toList = true := by
  induction shape using Shape.induction with
  | named name =>
    obtain ⟨first, hfirst, -, rfl | ⟨member, hmember, rfl⟩⟩ := Shape.wellFormed_named.mp h
    · exact spaced_word (continues_of_isWord hfirst)
    · have hdot : spaced ".".toList = true := by decide +kernel
      have hword := spaced_word (continues_of_isWord hfirst)
      have hother := spaced_word (continues_of_isWord hmember)
      simp only [Shape.render, String.toList_append, spaced_append, hdot, hword, hother,
        Bool.and_self]
  | optional pointee ih =>
    have hstar : spaced "*".toList = true := by decide +kernel
    simp only [Shape.render, String.toList_append, spaced_append, hstar,
      ih (Shape.wellFormed_optional.mp h), Bool.and_self]
  | sequence elem extent ih =>
    have hextent : spaced (Shape.extentText extent).toList = true := by
      cases extent with
      | dynamic => decide +kernel
      | fixed length =>
        have hbrackets : spaced "[".toList = true ∧ spaced "]".toList = true := by decide +kernel
        have hdigits := spaced_word (continues_toString length.toNat)
        simp only [Shape.extentText, String.toList_append, spaced_append, hbrackets, hdigits,
          Bool.and_self]
    simp only [Shape.render, String.toList_append, spaced_append, hextent,
      ih (Shape.wellFormed_sequence.mp h), Bool.and_self]
  | record fields ih =>
    obtain ⟨-, hfields⟩ := Shape.wellFormed_record.mp h
    cases fields with
    | nil => decide +kernel
    | cons f fields =>
      have hbraces : spaced "struct \x7b ".toList = true ∧ spaced " ".toList = true ∧
          spaced " \x7d".toList = true := by
        decide +kernel
      have hbody : spaced ("; ".intercalate (Shape.renderFields (f :: fields))).toList = true := by
        refine spaced_intercalate ?_
        rw [Shape.renderFields_eq_map]
        simp only [List.forall_mem_map, String.toList_append, spaced_append, hbraces, Bool.and_true,
          Bool.and_eq_true]
        intro g hg
        exact ⟨spaced_word (continues_of_isWord (hfields g hg).1), ih g hg (hfields g hg).2⟩
      simp only [Shape.render, String.toList_append, spaced_append, hbraces, hbody, Bool.and_self]

theorem stopsAt_dropWhile_append {continues : Char → Bool} {rest : List Char} (cs : List Char)
    (h : StopsAt continues rest) : StopsAt continues (cs.dropWhile continues ++ rest) := by
  cases hcs : cs.dropWhile continues with
  | nil => exact h
  | cons c others =>
    have hfirst := List.head_dropWhile_not continues (l := cs) (by simp [hcs])
    intro d hd
    simp_all

theorem spaced_dropWhile {c : Char} {cs : List Char} {p : Char → Bool}
    (h : spaced (c :: cs) = true) : spaced (cs.dropWhile p) = true := by
  have hall := List.all_eq_true.mp h
  exact List.all_eq_true.mpr fun d hd => hall d (.tail _ ((List.dropWhile_sublist p).subset hd))

/-- The lexemes of a type are its tokens in an expression. -/
theorem scan_append_of_written {cs rest : List Char} (hspaced : spaced cs = true)
    (hwritten : (lexemes cs).all isWritten = true) (hrest : StopsAt continuesWord rest) :
    scan (cs ++ rest) = (scan rest).map ((lexemes cs).map .plain ++ ·) := by
  -- the induction is that of the scanner of types, whose offset plays no part here
  have offset : Nat := 0
  induction offset, cs using TypeText.scan.induct with
  | case1 => simp
  | case2 offset c cs hblank ih =>
    simp only [spaced, List.all_cons, hblank, Bool.not_true, Bool.false_or, Bool.and_eq_true]
      at hspaced
    rw [lexemes_blank cs hblank] at hwritten ⊢
    rw [List.cons_append, scan_blank _ hspaced.1, ih hspaced.2 hwritten]
  | case3 offset c cs hblank hstart ih =>
    have hlex := lexemes_cons c cs
    rw [if_neg hblank, if_pos hstart] at hlex
    rw [hlex, List.all_cons, Bool.and_eq_true] at hwritten
    have hall : ∀ d ∈ cs.takeWhile continuesWord, continuesWord d = true :=
      List.all_eq_true.mp List.all_takeWhile
    have htext : c :: cs ++ rest =
        c :: (cs.takeWhile continuesWord ++ (cs.dropWhile continuesWord ++ rest)) := by
      rw [← List.append_assoc, List.takeWhile_append_dropWhile, List.cons_append]
    rw [htext, scan_word hstart hall (stopsAt_dropWhile_append cs hrest),
      ih (spaced_dropWhile hspaced) hwritten.2, hlex, Option.map_map]
    rfl
  | case4 offset c cs hblank hstart hdigit ih =>
    have hlex := lexemes_cons c cs
    rw [if_neg hblank, if_neg hstart, if_pos hdigit] at hlex
    rw [hlex, List.all_cons, Bool.and_eq_true] at hwritten
    have hall : ∀ d ∈ cs.takeWhile continuesNumber, continuesNumber d = true :=
      List.all_eq_true.mp List.all_takeWhile
    have htext : c :: cs ++ rest =
        c :: (cs.takeWhile continuesNumber ++ (cs.dropWhile continuesNumber ++ rest)) := by
      rw [← List.append_assoc, List.takeWhile_append_dropWhile, List.cons_append]
    rw [htext, scan_number hdigit hall (stopsAt_dropWhile_append cs (stopsAt_number hrest)),
      ih (spaced_dropWhile hspaced) hwritten.2, hlex, Option.map_map]
    rfl
  | case5 offset c cs hblank hstart hdigit ih =>
    have hlex : lexemes (c :: cs) = .mark c :: lexemes cs := by
      rw [lexemes_cons, if_neg hblank, if_neg hstart, if_neg hdigit]
    simp only [spaced, List.all_cons, Bool.and_eq_true] at hspaced
    simp only [hlex, List.all_cons, Bool.and_eq_true] at hwritten
    rw [hlex, List.cons_append, scan_mark _ (by simpa [isWritten] using hwritten.1),
      ih hspaced.2 hwritten.2, Option.map_map]
    rfl

theorem spells_type {type : Shape} (h : type.WellFormed) :
    ∃ ts, Derives ts type ∧ Spells type.render.toList (ts.map .plain) := by
  obtain ⟨ts, hts, hText⟩ := writes_render h
  have hlex := hText [] (by simp [StopsAt])
  rw [List.append_nil, lexemes_nil, List.append_nil] at hlex
  refine ⟨ts, hts, ?_⟩
  intro rest hrest
  rw [← hlex]
  exact scan_append_of_written (spaced_render h) (hlex ▸ isWritten_of_derives hts) hrest

/-- A type whose text starts with a lexeme has it as its first. -/
theorem eq_cons_of_spells {text rest : List Char} {l : Lexeme} {ts : List Lexeme}
    (h : Spells text (ts.map .plain))
    (hfirst : scan text = (scan rest).map (.plain l :: ·)) : ∃ us, ts = l :: us := by
  rw [h.scan] at hfirst
  obtain ⟨tokens, -, htokens⟩ := Option.map_eq_some_iff.mp hfirst.symm
  cases ts with
  | nil => cases htokens
  | cons t us =>
    cases htokens
    exact ⟨us, rfl⟩

end Unmarshal.CodeText
