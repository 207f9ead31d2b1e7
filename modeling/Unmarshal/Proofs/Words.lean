import Unmarshal.Names
import Unmarshal.Text.CharClass

/-!
# Words

The texts that read as one word of a type expression. A word stays one when characters are put
behind it that words may go on with; decimal digits are among them.
-/
namespace Unmarshal.Text

/-- A word starts and goes on as words do. -/
def isWord (text : String) : Bool :=
  match text.toList with
  | [] => false
  | c :: cs => startsWord c && cs.all continuesWord

/-- A word that can name something: a lone underscore cannot. -/
def isName (text : String) : Bool := isWord text && text != "_"

theorem isWord_eq_true_iff {text : String} :
    isWord text = true ↔ ∃ c cs, text.toList = c :: cs ∧ startsWord c = true ∧
      ∀ d ∈ cs, continuesWord d = true := by
  unfold isWord
  cases text.toList with
  | nil => simp
  | cons c cs =>
    rw [Bool.and_eq_true, List.all_eq_true]
    constructor
    · rintro ⟨hstart, hrest⟩
      exact ⟨c, cs, rfl, hstart, hrest⟩
    · rintro ⟨_, _, hl, hstart, hrest⟩
      cases hl
      exact ⟨hstart, hrest⟩

theorem isName_eq_true_iff {text : String} :
    isName text = true ↔ isWord text = true ∧ text ≠ "_" := by
  simp [isName]

theorem continuesWord_of_isDigit {c : Char} (h : c.isDigit = true) : continuesWord c = true := by
  have hNumeric : isNumeric c = true := by
    refine List.any_eq_true.mpr ⟨(0x30, 0x39), by unfold numericRanges; exact .head _, ?_⟩
    simpa [Char.isDigit, UInt32.le_iff_toNat_le] using h
  rw [continuesWord, hNumeric, Bool.or_true]

theorem continues_toString (n : Nat) : ∀ c ∈ (toString n).toList, continuesWord c = true := by
  intro c hc
  rw [Nat.toString_eq_repr, Nat.toList_repr] at hc
  exact continuesWord_of_isDigit (Nat.isDigit_of_mem_toDigits (by decide) (by decide) hc)

theorem continues_of_isWord {text : String} (h : isWord text = true) :
    ∀ c ∈ text.toList, continuesWord c = true := by
  obtain ⟨c, cs, hl, hstart, hrest⟩ := isWord_eq_true_iff.mp h
  rw [hl]
  intro d hd
  rcases List.mem_cons.mp hd with rfl | hd
  · exact continuesWord_of_startsWord hstart
  · exact hrest d hd

theorem isName_append {base suffix : String} (hb : isName base = true)
    (hs : ∀ c ∈ suffix.toList, continuesWord c = true) : isName (base ++ suffix) = true := by
  obtain ⟨hword, hne⟩ := isName_eq_true_iff.mp hb
  obtain ⟨c, cs, hl, hstart, hrest⟩ := isWord_eq_true_iff.mp hword
  have happend : (base ++ suffix).toList = c :: (cs ++ suffix.toList) := by
    rw [String.toList_append, hl, List.cons_append]
  refine isName_eq_true_iff.mpr ⟨isWord_eq_true_iff.mpr ⟨c, _, happend, hstart, ?_⟩, ?_⟩
  · intro d hd
    exact (List.mem_append.mp hd).elim (hrest d) (hs d)
  · intro h
    have hlist : c :: (cs ++ suffix.toList) = ['_'] := by rw [← happend, h]; rfl
    simp only [List.cons.injEq, List.append_eq_nil_iff] at hlist
    apply hne
    apply String.toList_injective
    rw [hl, hlist.1, hlist.2.1]
    rfl

end Unmarshal.Text

namespace Unmarshal.Names

open Text

theorem isName_claim (names : Names) {base : String} (hb : isName base = true) :
    isName (names.claim base).1 = true := by
  simp only [claim]
  cases firstFree base names.used 0 with
  | zero => exact hb
  | succ n => exact isName_append hb (continues_toString (n + 1))

end Unmarshal.Names
