/-!
# JSON trees

The tree of values that serialized shapes, code and reports are built from, and that a manifest is
decoded from whichever notation it was written in. An integer is exact at any size; any other
number keeps its written form, since nothing here computes with it.
-/
namespace Unmarshal

inductive Json where
  | null
  | bool (value : Bool)
  | int (value : Int)
  | real (digits : String)
  | str (value : String)
  | arr (items : List Json)
  | obj (entries : List (String × Json))
deriving Inhabited, Repr

namespace Json

/-- The value under a key: the first entry with it. -/
def lookup (key : String) : List (String × Json) → Option Json
  | [] => none
  | (k, j) :: rest => if k = key then some j else lookup key rest

def text? : Json → Option String
  | .str s => some s
  | _ => none

def ofNat (n : Nat) : Json := .int n

def ofTexts (texts : List String) : Json := .arr (texts.map .str)

/-- A text, or null in its absence. -/
def ofText? : Option String → Json
  | some s => .str s
  | none => .null

/-- A value under its only key: the form of an alternative that carries data. -/
def tagged (tag : String) (content : Json) : Json := .obj [(tag, content)]

@[simp] theorem lookup_cons_self (key : String) (j : Json) (rest : List (String × Json)) :
    lookup key ((key, j) :: rest) = some j := by
  simp [lookup]

theorem lookup_cons_ne {k key : String} (h : k ≠ key) (j : Json) (rest : List (String × Json)) :
    lookup key ((k, j) :: rest) = lookup key rest := by
  simp [lookup, h]

theorem mem_of_lookup {key : String} {entries : List (String × Json)} {j : Json}
    (h : lookup key entries = some j) : (key, j) ∈ entries := by
  induction entries with
  | nil => cases h
  | cons entry rest ih =>
    obtain ⟨k, j'⟩ := entry
    by_cases hk : k = key
    · subst hk
      obtain rfl : j' = j := by simpa using h
      exact .head rest
    · rw [lookup_cons_ne hk] at h
      exact .tail _ (ih h)

end Json

end Unmarshal
