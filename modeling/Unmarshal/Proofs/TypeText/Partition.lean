import Mathlib.Algebra.Group.Nat.Defs
import Mathlib.Data.String.Basic
import Unmarshal.Proofs.TypeText.Cuts

/-!
# Tokens and gaps

The tokens of a text lie in it in order and apart, each on whole characters and as long as its class
allows. Between them there is nothing but blanks, so tokens and gaps put together are the text.
Bytes here are those of the text itself in UTF-8.
-/
namespace Unmarshal.Text

theorem utf8Len_eq_byteLength (cs : List Char) : String.utf8Len cs = byteLength cs := by
  induction cs with
  | nil => rfl
  | cons c cs ih => rw [String.utf8Len_cons, byteLength_cons, ih, Nat.add_comm]

theorem utf8ByteSize_eq_byteLength (text : String) :
    text.utf8ByteSize = byteLength text.toList := by
  rw [← utf8Len_eq_byteLength, ← String.utf8ByteSize_ofList, String.ofList_toList]

section

variable {text : String} {offset : Nat}

/-- A byte at which a character starts is one at which the text may be cut. -/
theorem isBoundary_iff_isValid :
    IsBoundary text.toList offset ↔ (⟨offset⟩ : String.Pos.Raw).IsValid text := by
  rw [String.Pos.Raw.isValid_iff_exists_append]
  constructor
  · rintro ⟨before, after, htext, rfl⟩
    refine ⟨String.ofList before, String.ofList after, ?_, ?_⟩
    · rw [← String.ofList_append, ← htext, String.ofList_toList]
    · rw [String.Pos.Raw.ext_iff, String.byteIdx_rawEndPos, String.utf8ByteSize_ofList,
        utf8Len_eq_byteLength]
  · rintro ⟨before, after, rfl, hoffset⟩
    refine ⟨before.toList, after.toList, String.toList_append, ?_⟩
    rw [String.Pos.Raw.ext_iff, String.byteIdx_rawEndPos] at hoffset
    rw [← utf8ByteSize_eq_byteLength, ← hoffset]

/-- The bytes of a text at a span. -/
def Span.extract (s : Span) (text : String) : String :=
  String.Pos.Raw.extract text ⟨s.start⟩ ⟨s.stop⟩

theorem Span.extract_eq {before inside after : List Char}
    (htext : text.toList = before ++ (inside ++ after)) :
    Span.extract ⟨byteLength before, byteLength before + byteLength inside⟩ text =
      String.ofList inside := by
  have h := String.extract_of_valid before inside after
  rw [utf8Len_eq_byteLength, utf8Len_eq_byteLength, List.append_assoc, ← htext,
    String.ofList_toList] at h
  exact h

/-- The character that starts at a byte of the text. -/
theorem get?_eq_head? {before after : List Char} (htext : text.toList = before ++ after) :
    String.Pos.Raw.get? text ⟨byteLength before⟩ = after.head? := by
  have h := String.get?_of_valid before after
  rwa [utf8Len_eq_byteLength, ← htext, String.ofList_toList] at h

end

/-- A number starts with a digit and goes on as numbers do. -/
def isNumber (text : String) : Bool :=
  match text.toList with
  | [] => false
  | c :: cs => c.isDigit && cs.all continuesNumber

end Unmarshal.Text

namespace Unmarshal.TypeText

open Text

/-- The lexeme is of its class, and with `next` behind it no longer one is: a word or a number does
not go on, and a mark starts neither. -/
inductive Lexeme.Greedy : Lexeme → Option Char → Prop where
  | word {text : String} {next : Option Char} (h : isWord text = true)
      (hnext : ∀ c ∈ next, continuesWord c = false) : Greedy (.word text) next
  | number {text : String} {next : Option Char} (h : isNumber text = true)
      (hnext : ∀ c ∈ next, continuesNumber c = false) : Greedy (.number text) next
  | mark {c : Char} {next : Option Char} (hword : startsWord c = false)
      (hnumber : c.isDigit = false) : Greedy (.mark c) next

theorem head?_dropWhile_eq_false {p : Char → Bool} {cs : List Char} :
    ∀ c ∈ (cs.dropWhile p).head?, p c = false := by
  intro c hc
  have h := List.head?_dropWhile_not p cs
  rwa [Option.mem_def.mp hc] at h

/-- A long token and what it leaves are the characters that it was read from. -/
theorem cons_eq_munch (p : Char → Bool) (c : Char) (cs : List Char) :
    c :: cs = (String.ofList (c :: cs.takeWhile p)).toList ++ cs.dropWhile p := by
  rw [String.toList_ofList, List.cons_append, List.takeWhile_append_dropWhile]

/-- The first token, if nothing stands in front of it, is what the characters start with. -/
theorem greedy_head {offset : Nat} {cs : List Char} {token : Token} {after : List Token}
    (h : scan offset cs = token :: after) (hstart : token.span.start = offset) :
    ∃ back, cs = token.chars ++ back ∧ token.lexeme.Greedy back.head? := by
  cases cs with
  | nil => simp [scan] at h
  | cons c cs =>
    rw [scan] at h
    split at h
    · -- behind a blank a token starts further back
      have hbounds := (tiles_scan (offset + c.utf8Size) cs).bounds token (h ▸ .head _)
      have hsize := c.utf8Size_pos
      omega
    next hblank =>
      split at h
      next hword =>
        obtain ⟨rfl, -⟩ := List.cons.inj h
        refine ⟨cs.dropWhile continuesWord, ?_, .word ?_ head?_dropWhile_eq_false⟩
        · exact cons_eq_munch continuesWord c cs
        · exact isWord_eq_true_iff.mpr ⟨c, _, String.toList_ofList, hword,
            fun d hd => List.all_eq_true.mp List.all_takeWhile d hd⟩
      next hword =>
        split at h
        next hdigit =>
          obtain ⟨rfl, -⟩ := List.cons.inj h
          refine ⟨cs.dropWhile continuesNumber, ?_, .number ?_ head?_dropWhile_eq_false⟩
          · exact cons_eq_munch continuesNumber c cs
          · simp [isNumber, hdigit]
        next hdigit =>
          obtain ⟨rfl, -⟩ := List.cons.inj h
          refine ⟨cs, ?_, .mark (by simpa using hword) (by simpa using hdigit)⟩
          simp [Token.chars, Lexeme.text]

/-- A text put together from tokens and the bytes between their spans, from byte `offset` on. -/
def woven (text : String) : Nat → List Token → String
  | offset, [] => Span.extract ⟨offset, text.utf8ByteSize⟩ text
  | offset, token :: tokens =>
    Span.extract ⟨offset, token.span.start⟩ text ++
      (token.lexeme.text ++ woven text token.span.stop tokens)

theorem Tiles.isBlank_of_outside {offset : Nat} {cs before after : List Char} {ts : List Token}
    {c : Char} (h : Tiles offset cs ts) (hcs : cs = before ++ c :: after)
    (hout : ∀ token ∈ ts, offset + byteLength before < token.span.start ∨
      token.span.stop ≤ offset + byteLength before) : isBlank c = true := by
  induction h generalizing before with
  | nil hblanks => exact hblanks c (by simp [hcs])
  | @cons offset blanks rest token tokens hblanks _ _ hspan _ ih =>
    rw [List.forall_mem_cons, hspan] at hout
    obtain ⟨hfirst, hothers⟩ := hout
    simp only at hfirst
    rcases append_eq_append_cons hcs with ⟨more, rfl⟩ | ⟨behind, rfl, hbehind⟩
    · exact hblanks c (by simp)
    · rw [byteLength_append] at hfirst hothers
      rcases append_eq_append_cons hbehind with ⟨more, hchars⟩ | ⟨further, rfl, hrest⟩
      · -- inside the token, where the character must not be
        have hsize := c.utf8Size_pos
        rw [hchars, byteLength_append, byteLength_cons] at hfirst
        omega
      · apply ih hrest
        intro other hother
        have hplace := hothers other hother
        rw [byteLength_append] at hplace
        rw [hspan]
        simp only [Nat.add_assoc] at hplace ⊢
        exact hplace

theorem Tiles.woven_eq {text : String} {front back : List Char} {ts : List Token}
    (htext : text.toList = front ++ back) (h : Tiles (byteLength front) back ts) :
    TypeText.woven text (byteLength front) ts = String.ofList back := by
  -- what has been put together so far moves to the front as the induction goes on
  generalize hoffset : byteLength front = offset at h ⊢
  induction h generalizing front with
  | @nil offset blanks hblanks =>
    subst hoffset
    have hsize : text.utf8ByteSize = byteLength front + byteLength blanks := by
      rw [utf8ByteSize_eq_byteLength, htext, byteLength_append]
    have hall : text.toList = front ++ (blanks ++ []) := by rw [htext, List.append_nil]
    rw [TypeText.woven, hsize]
    exact Span.extract_eq hall
  | @cons offset blanks rest token tokens hblanks hne hsolid hspan h ih =>
    subst hoffset
    have hgap : Span.extract ⟨byteLength front, token.span.start⟩ text = String.ofList blanks := by
      rw [hspan]
      exact Span.extract_eq htext
    have hrest : TypeText.woven text token.span.stop tokens = String.ofList rest := by
      apply @ih (front ++ (blanks ++ token.chars))
      · rw [htext]
        simp only [List.append_assoc]
      · rw [hspan]
        simp only [byteLength_append, Nat.add_assoc]
    rw [TypeText.woven, hgap, hrest, String.ofList_append, String.ofList_append, Token.chars,
      String.ofList_toList]

theorem Tiles.length_le {offset : Nat} {cs : List Char} {ts : List Token} (h : Tiles offset cs ts) :
    ts.length ≤ cs.length := by
  induction h with
  | nil => simp
  | cons _ hne _ _ _ ih =>
    have hpos := List.length_pos_iff.mpr hne
    simp only [List.length_cons, List.length_append]
    omega

/-- The tokens are the parts of the text that say something, and all of them. -/
structure Partitions (text : String) (ts : List Token) : Prop where
  bounds : ∀ token ∈ ts, token.span.start < token.span.stop ∧
    token.span.stop ≤ text.utf8ByteSize
  ordered : ts.Pairwise fun first second => first.span.stop ≤ second.span.start
  whole : ∀ token ∈ ts, (⟨token.span.start⟩ : String.Pos.Raw).IsValid text ∧
    (⟨token.span.stop⟩ : String.Pos.Raw).IsValid text
  spelled : ∀ token ∈ ts, token.span.extract text = token.lexeme.text
  solid : ∀ token ∈ ts, ∀ c ∈ token.lexeme.text.toList, isBlank c = false
  greedy : ∀ token ∈ ts, token.lexeme.Greedy (String.Pos.Raw.get? text ⟨token.span.stop⟩)
  /-- Outside of all tokens there are only blanks. -/
  blank : ∀ offset c, (⟨offset⟩ : String.Pos.Raw).IsValid text →
    String.Pos.Raw.get? text ⟨offset⟩ = some c →
    (∀ token ∈ ts, offset < token.span.start ∨ token.span.stop ≤ offset) → isBlank c = true
  woven : woven text 0 ts = text
  length : ts.length ≤ text.length

theorem greedy_of_mem_tokens {text : String} {token : Token} (h : token ∈ tokens text) :
    token.lexeme.Greedy (String.Pos.Raw.get? text ⟨token.span.stop⟩) := by
  obtain ⟨before, after, hts⟩ := List.append_of_mem h
  obtain ⟨front, back, htext, hstart, -, hback⟩ := scan_split hts
  obtain ⟨rest, rfl, hgreedy⟩ := greedy_head hback hstart
  have hstop : token.span.stop = byteLength (front ++ token.chars) := by
    obtain ⟨before, after, -, hspan⟩ := ((tiles_tokens text).covers h).1
    rw [byteLength_append, ← hstart, hspan]
  have hrest : text.toList = (front ++ token.chars) ++ rest := by
    rw [htext, List.append_assoc]
  rw [hstop, get?_eq_head? hrest]
  exact hgreedy

theorem isBlank_of_outside_tokens {text : String} {offset : Nat} {c : Char}
    (hvalid : (⟨offset⟩ : String.Pos.Raw).IsValid text)
    (hc : String.Pos.Raw.get? text ⟨offset⟩ = some c)
    (hout : ∀ token ∈ tokens text, offset < token.span.start ∨ token.span.stop ≤ offset) :
    isBlank c = true := by
  obtain ⟨before, after, htext, rfl⟩ := isBoundary_iff_isValid.mpr hvalid
  rw [get?_eq_head? htext] at hc
  obtain ⟨after, rfl⟩ := List.head?_eq_some_iff.mp hc
  exact (tiles_tokens text).isBlank_of_outside htext (by simpa using hout)

/-- The tokens of a text lie in it one after the other, none of them empty, on whole characters, and
are what the text says there. What lies outside of them is blank and nothing in them is; each is as
long as its class allows. Put together with the gaps they are the text again, and there are no more
of them than characters. A text that 32 bits can measure has all its offsets within them. -/
theorem tokens_partition (text : String) (h : text.utf8ByteSize < 2 ^ 32) :
    Partitions text (tokens text) ∧ ∀ token ∈ tokens text, token.span.stop < 2 ^ 32 := by
  have htiles := tiles_tokens text
  have hbounds : ∀ token ∈ tokens text, token.span.start < token.span.stop ∧
      token.span.stop ≤ text.utf8ByteSize := by
    intro token htoken
    have hinside := htiles.bounds token htoken
    rw [utf8ByteSize_eq_byteLength]
    omega
  refine ⟨⟨hbounds, htiles.ordered, ?_, ?_, ?_, fun _ => greedy_of_mem_tokens,
    fun _ _ => isBlank_of_outside_tokens, ?_, ?_⟩, ?_⟩
  · intro token htoken
    have hfits := (htiles.covers htoken).1.fits
    exact ⟨isBoundary_iff_isValid.mp hfits.start, isBoundary_iff_isValid.mp hfits.stop⟩
  · intro token htoken
    obtain ⟨before, after, htext, hspan⟩ := (htiles.covers htoken).1
    rw [hspan, Span.extract_eq htext, Token.chars, String.ofList_toList]
  · intro token htoken
    obtain ⟨before, after, hts⟩ := List.append_of_mem htoken
    rw [hts] at htiles
    obtain ⟨-, -, -, -, -, hsolid, -⟩ := htiles.split
    exact hsolid
  · have hwoven := @Tiles.woven_eq text [] text.toList (tokens text) rfl htiles
    rwa [String.ofList_toList] at hwoven
  · exact htiles.length_le
  · intro token htoken
    have hstop := (hbounds token htoken).2
    omega

/-- Characters of one to four bytes, a blank of three, and a number that a letter of its own alphabet
continues and a letter of another ends. -/
theorem tokens_partition_unicode :
    "*é [3x𝔸]\u3000ß₂.y".utf8ByteSize < 2 ^ 32 ∧
      (tokens "*é [3x𝔸]\u3000ß₂.y").map Token.span =
        [⟨0, 1⟩, ⟨1, 3⟩, ⟨4, 5⟩, ⟨5, 7⟩, ⟨7, 11⟩, ⟨11, 12⟩, ⟨15, 20⟩, ⟨20, 21⟩, ⟨21, 22⟩] ∧
      Partitions "*é [3x𝔸]\u3000ß₂.y" (tokens "*é [3x𝔸]\u3000ß₂.y") := by
  have hsize : "*é [3x𝔸]\u3000ß₂.y".utf8ByteSize < 2 ^ 32 := by decide +kernel
  exact ⟨hsize, by decide +kernel, (tokens_partition _ hsize).1⟩

end Unmarshal.TypeText
