import Unmarshal.Proofs.TypeText.Acceptance
import Unmarshal.Proofs.TypeText.Lexing
import Unmarshal.Proofs.Unfolding
import Unmarshal.Shape.Render

/-!
# Written shapes read back

A shape is well-formed if its names can be written and the fields of each of its records are told
apart. Reading yields well-formed shapes only, and what is written for one of them reads back as
that shape.
-/
namespace Unmarshal

namespace Shape

open Text TypeText

/-- A word, or two with a dot between them, of which the first opens no other form. -/
def IsTypeName (name : String) : Prop :=
  ∃ first, isWord first = true ∧ first ∉ reservedWords ∧
    (name = first ∨ ∃ member, isWord member = true ∧ name = first ++ "." ++ member)

/-- The names at the leaves can be written, and the fields of a record are distinct words. -/
structure WellFormed (shape : Shape) : Prop where
  names : ∀ name ∈ shape.names, IsTypeName name
  records : shape.EveryRecord fun names => (∀ n ∈ names, isWord n = true) ∧ names.Nodup

theorem wellFormed_named {name : String} : (named name).WellFormed ↔ IsTypeName name := by
  constructor
  · intro h
    exact h.names name (by simp [Shape.names])
  · intro h
    exact ⟨by simpa [Shape.names] using h, trivial⟩

theorem wellFormed_optional {pointee : Shape} :
    (optional pointee).WellFormed ↔ pointee.WellFormed :=
  ⟨fun h => ⟨h.names, h.records⟩, fun h => ⟨h.names, h.records⟩⟩

theorem wellFormed_sequence {elem : Shape} {extent : Extent} :
    (sequence elem extent).WellFormed ↔ elem.WellFormed :=
  ⟨fun h => ⟨h.names, h.records⟩, fun h => ⟨h.names, h.records⟩⟩

theorem wellFormed_record {fields : List (Field Shape)} :
    (record fields).WellFormed ↔ (fields.map Field.name).Nodup ∧
      ∀ f ∈ fields, isWord f.name = true ∧ f.type.WellFormed := by
  constructor
  · rintro ⟨hnames, ⟨hwords, hnodup⟩, hfields⟩
    refine ⟨hnodup, ?_⟩
    intro f hf
    refine ⟨hwords f.name (List.mem_map_of_mem hf), ?_, everyRecordOfFields_iff.mp hfields f hf⟩
    intro name hname
    exact hnames name (mem_namesOfFields.mpr ⟨f, hf, hname⟩)
  · rintro ⟨hnodup, hfields⟩
    refine ⟨?_, ⟨?_, hnodup⟩, everyRecordOfFields_iff.mpr fun f hf => (hfields f hf).2.records⟩
    · intro name hname
      obtain ⟨f, hf, hname⟩ := mem_namesOfFields.mp hname
      exact (hfields f hf).2.names name hname
    · intro name hname
      obtain ⟨f, hf, rfl⟩ := List.mem_map.mp hname
      exact (hfields f hf).1

end Shape

namespace TypeText

open Text Shape

/-! ## What is read is well-formed -/

/-- The fields of a group, for which one type was read. -/
theorem wellFormed_groupFields {name : String} {names : List String} {ts : List Lexeme}
    {type : Shape}
    (words : ∀ word, .word word ∈ .word name :: (moreNames names ++ ts) → isWord word = true)
    (h : type.WellFormed) :
    ∀ f ∈ groupFields (name :: names) type, isWord f.name = true ∧ f.type.WellFormed := by
  intro f hf
  obtain ⟨n, hn, rfl⟩ := List.mem_map.mp hf
  refine ⟨words n ?_, h⟩
  rcases List.mem_cons.mp hn with rfl | hn
  · simp
  · simp [moreNames, hn]

theorem Derives.wellFormed {ts : List Lexeme} {shape : Shape} (h : Derives ts shape)
    (words : ∀ word, .word word ∈ ts → isWord word = true) : shape.WellFormed := by
  induction h using Derives.rec (motive_2 := fun ts fields _ =>
    (∀ word, .word word ∈ ts → isWord word = true) →
      ∀ f ∈ fields, isWord f.name = true ∧ f.type.WellFormed) with
  | pointer _ ih => exact wellFormed_optional.mpr (ih fun w hw => words w (by simp [hw]))
  | slice _ ih => exact wellFormed_sequence.mpr (ih fun w hw => words w (by simp [hw]))
  | array _ _ ih => exact wellFormed_sequence.mpr (ih fun w hw => words w (by simp [hw]))
  | record _ distinct ih =>
    exact wellFormed_record.mpr ⟨distinct, ih fun w hw => words w (by simp [hw])⟩
  | @named word hw => exact wellFormed_named.mpr ⟨word, words word (by simp), hw, .inl rfl⟩
  | @qualified package member hp =>
    exact wellFormed_named.mpr ⟨package, words package (by simp), hp,
      .inr ⟨member, words member (by simp), rfl⟩⟩
  | parens _ ih => exact ih fun w hw => words w (by simp [hw])
  | none =>
    rename_i hf
    cases hf
  | semicolon _ ih =>
    rename_i words f hf
    exact ih (fun w hw => words w (by simp [hw])) f hf
  | @last name names ts type _ ih =>
    rename_i words f hf
    exact wellFormed_groupFields words (ih fun w hw => words w (by simp [hw])) f hf
  | @group name names ts us type fields _ _ ih ihFields =>
    rename_i words f hf
    rcases List.mem_append.mp hf with hf | hf
    · have hGroup : ∀ w, .word w ∈ .word name :: (moreNames names ++ ts) → isWord w = true := by
        intro w hw
        apply words w
        simp only [List.mem_cons, List.mem_append] at hw ⊢
        rcases hw with hw | hw | hw <;> simp [hw]
      exact wellFormed_groupFields hGroup (ih fun w hw => words w (by simp [hw])) f hf
    · exact ihFields (fun w hw => words w (by simp [hw])) f hf

theorem wellFormed_of_read {text : String} {shape : Shape} (h : read text = .ok shape) :
    shape.WellFormed := by
  apply (read_eq_ok_iff.mp h).wellFormed
  intro word hw
  exact isWord_of_mem_lexemes hw

/-! ## What is written reads back -/

/-- The text has these lexemes wherever it is not continued as a word. -/
def Says (text : List Char) (ts : List Lexeme) : Prop :=
  ∀ rest, StopsAt continuesWord rest → lexemes (text ++ rest) = ts ++ lexemes rest

/-- The text has lexemes that derive the shape. -/
def Writes (text : String) (shape : Shape) : Prop :=
  ∃ ts, Derives ts shape ∧ Says text.toList ts

theorem Says.word {word : String} (h : isWord word = true) : Says word.toList [.word word] := by
  intro rest hrest
  exact lexemes_word h hrest

theorem Says.mark {c : Char} {text : List Char} {ts : List Lexeme} (hc : c ∈ marks)
    (h : Says text ts) : Says (c :: text) (.mark c :: ts) := by
  intro rest hrest
  rw [List.cons_append, lexemes_mark _ hc, h rest hrest]
  rfl

theorem Says.blank {text : List Char} {ts : List Lexeme} (h : Says text ts) :
    Says (' ' :: text) ts := by
  intro rest hrest
  rw [List.cons_append, lexemes_blank _ (by decide), h rest hrest]

theorem Says.nil : Says [] [] := by
  intro rest _
  rfl

theorem Says.append {first second : List Char} {ts us : List Lexeme} (h : Says first ts)
    (hstop : ∀ rest, StopsAt continuesWord rest → StopsAt continuesWord (second ++ rest))
    (k : Says second us) : Says (first ++ second) (ts ++ us) := by
  intro rest hrest
  rw [List.append_assoc, h _ (hstop rest hrest), k rest hrest, List.append_assoc]

theorem writes_name {name : String} (h : IsTypeName name) : Writes name (.named name) := by
  obtain ⟨first, hfirst, hreserved, rfl | ⟨member, hmember, rfl⟩⟩ := h
  · exact ⟨_, .named hreserved, .word hfirst⟩
  · refine ⟨_, @Derives.qualified first member hreserved, ?_⟩
    have hdot : Says ('.' :: member.toList) [.mark '.', .word member] :=
      .mark (by decide) (.word hmember)
    simpa using (Says.word hfirst).append (fun rest _ => stopsAt_mark _ (by decide)) hdot

theorem isDigit_of_mem_toString {n : Nat} {c : Char} (h : c ∈ (toString n).toList) :
    c.isDigit = true := by
  rw [Nat.toString_eq_repr, Nat.toList_repr] at h
  exact Nat.isDigit_of_mem_toDigits (by decide) (by decide) h

theorem isLength_toString (length : UInt64) : IsLength (toString length.toNat) length := by
  refine ⟨fun c => isDigit_of_mem_toString, ?_⟩
  rw [Nat.toString_eq_repr, Nat.toList_repr]
  exact Nat.ofDigitChars_ten_toDigits

theorem Says.number {n : Nat} {text : List Char} {ts : List Lexeme} (h : Says text ts) :
    Says ((toString n).toList ++ ']' :: text) (.number (toString n) :: .mark ']' :: ts) := by
  have hne : (toString n).toList ≠ [] := by
    rw [Nat.toString_eq_repr, Nat.toList_repr]
    exact Nat.toDigits_ne_nil
  intro rest hrest
  have hstop : StopsAt continuesNumber (']' :: text ++ rest) := by
    intro c hc
    cases hc
    decide
  rw [List.append_assoc, lexemes_number hne (fun c => isDigit_of_mem_toString) hstop,
    List.cons_append, lexemes_mark _ (by decide), h rest hrest]
  rfl

theorem writes_fields {f : Field Shape} {fields : List (Field Shape)}
    (h : ∀ g ∈ f :: fields, isWord g.name = true ∧ Writes g.type.render g.type) :
    ∃ ts, DerivesFields ts (f :: fields) ∧
      Says ("; ".intercalate (renderFields (f :: fields))).toList ts := by
  induction fields generalizing f with
  | nil =>
    obtain ⟨hname, ts, hts, hText⟩ := h f (by simp)
    refine ⟨_, @DerivesFields.last f.name [] _ _ hts, ?_⟩
    have hField := (Says.word hname).append (fun rest _ => stopsAt_blank _ (by decide)) hText.blank
    simpa [renderFields] using hField
  | cons g fields ih =>
    obtain ⟨hname, ts, hts, hText⟩ := h f (by simp)
    obtain ⟨us, hus, hothers⟩ := ih fun g hg => h g (List.mem_cons_of_mem _ hg)
    refine ⟨_, @DerivesFields.group f.name [] _ _ _ _ hts hus, ?_⟩
    have hNext := hothers.blank.mark (c := ';') (by decide)
    have hType := hText.append (fun rest _ => stopsAt_mark _ (by decide)) hNext
    have hField := (Says.word hname).append (fun rest _ => stopsAt_blank _ (by decide)) hType.blank
    simpa [renderFields] using hField

theorem writes_render {shape : Shape} (h : shape.WellFormed) : Writes shape.render shape := by
  induction shape using Shape.induction with
  | named name => exact writes_name (wellFormed_named.mp h)
  | optional pointee ih =>
    obtain ⟨ts, hts, hText⟩ := ih (wellFormed_optional.mp h)
    exact ⟨_, .pointer hts, by simpa [render] using hText.mark (c := '*') (by decide)⟩
  | sequence elem extent ih =>
    obtain ⟨ts, hts, hText⟩ := ih (wellFormed_sequence.mp h)
    cases extent with
    | dynamic =>
      refine ⟨_, .slice hts, ?_⟩
      have hClose := hText.mark (c := ']') (by decide)
      simpa [render, extentText] using hClose.mark (c := '[') (by decide)
    | fixed length =>
      refine ⟨_, .array (isLength_toString length) hts, ?_⟩
      have hLength := hText.number (n := length.toNat)
      simpa [render, extentText] using hLength.mark (c := '[') (by decide)
  | record fields ih =>
    obtain ⟨distinct, hfields⟩ := wellFormed_record.mp h
    have hstruct : Says "struct".toList [.word "struct"] := .word (by decide +kernel)
    cases fields with
    | nil =>
      refine ⟨_, .record .none distinct, ?_⟩
      have hbraces : Says ['\x7b', '\x7d'] [.mark '\x7b', .mark '\x7d'] :=
        (Says.nil.mark (by decide)).mark (by decide)
      simpa [render] using hstruct.append (fun rest _ => stopsAt_mark _ (by decide)) hbraces
    | cons f fields =>
      obtain ⟨ts, hts, hText⟩ :=
        writes_fields fun g hg => ⟨(hfields g hg).1, ih g hg (hfields g hg).2⟩
      refine ⟨_, .record hts distinct, ?_⟩
      have hclose : Says [' ', '\x7d'] [.mark '\x7d'] := (Says.nil.mark (by decide)).blank
      have hbody := hText.append (fun rest _ => stopsAt_blank _ (by decide)) hclose
      have hopen := (hbody.blank.mark (c := '\x7b') (by decide)).blank
      simpa [render] using hstruct.append (fun rest _ => stopsAt_blank _ (by decide)) hopen

theorem read_render {shape : Shape} (h : shape.WellFormed) : read shape.render = .ok shape := by
  obtain ⟨ts, hts, hText⟩ := writes_render h
  have hlex := hText [] (by simp [StopsAt])
  rw [List.append_nil, lexemes_nil, List.append_nil] at hlex
  rw [read_eq_ok_iff, map_lexeme_tokens, hlex]
  exact hts

/-- Exactly the well-formed shapes are read from what is written for them. Every accepted text
yields one, and reading what is written for it changes nothing. -/
theorem read_render_inverse :
    (∀ shape : Shape, read shape.render = .ok shape ↔ shape.WellFormed) ∧
      ∀ (text : String) (shape : Shape), read text = .ok shape →
        shape.WellFormed ∧ read shape.render = read text := by
  constructor
  · intro shape
    exact ⟨wellFormed_of_read, read_render⟩
  · intro text shape h
    have hw := wellFormed_of_read h
    exact ⟨hw, (read_render hw).trans h.symm⟩

/-- A group of two fields, parentheses, blanks around a dot and a trailing semicolon: the text that
is written has none of them, and says the same. -/
theorem read_render_inverse_grouped :
    read "struct{A,B(*é . T);}" =
        .ok (record [⟨"A", optional (named "é.T")⟩, ⟨"B", optional (named "é.T")⟩]) ∧
      (record [⟨"A", optional (named "é.T")⟩, ⟨"B", optional (named "é.T")⟩]).WellFormed ∧
      read "struct { A *é.T; B *é.T }" =
        .ok (record [⟨"A", optional (named "é.T")⟩, ⟨"B", optional (named "é.T")⟩]) := by
  generalize hshape : record [⟨"A", optional (named "é.T")⟩, ⟨"B", optional (named "é.T")⟩] = shape
  have hvalue : (read "struct{A,B(*é . T);}").toOption = some shape := by
    rw [← hshape]
    decide +kernel
  have hread : read "struct{A,B(*é . T);}" = .ok shape := by
    cases h : read "struct{A,B(*é . T);}" with
    | ok found =>
      rw [h] at hvalue
      exact congrArg Except.ok (Option.some.inj hvalue)
    | error e =>
      rw [h] at hvalue
      cases hvalue
  have hrender : shape.render = "struct { A *é.T; B *é.T }" := by
    rw [← hshape]
    decide +kernel
  obtain ⟨hw, hagain⟩ := read_render_inverse.2 _ shape hread
  refine ⟨hread, hw, ?_⟩
  rw [← hrender, hagain, hread]

end TypeText

end Unmarshal
