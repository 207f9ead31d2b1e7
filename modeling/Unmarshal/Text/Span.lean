/-!
# Byte spans

A span is a half-open range of byte offsets into a text in its UTF-8 form. A diagnostic clamps it
to the text and widens an empty one to a byte, so that there is something to underline.
-/
namespace Unmarshal.Text

/-- Bytes from `start` up to, and without, `stop`. -/
structure Span where
  start : Nat
  stop : Nat
deriving DecidableEq, Repr

/-- Number of bytes that the characters take in UTF-8. -/
def byteLength (cs : List Char) : Nat := cs.foldr (fun c n => c.utf8Size + n) 0

@[simp] theorem byteLength_nil : byteLength [] = 0 := rfl

@[simp] theorem byteLength_cons (c : Char) (cs : List Char) :
    byteLength (c :: cs) = c.utf8Size + byteLength cs := rfl

@[simp] theorem byteLength_append (cs ds : List Char) :
    byteLength (cs ++ ds) = byteLength cs + byteLength ds := by
  induction cs with
  | nil => simp
  | cons c cs ih => simp [ih, Nat.add_assoc]

/-- The characters that start at byte offset `n` or later. -/
def dropBytes : Nat → List Char → List Char
  | 0, cs => cs
  | _ + 1, [] => []
  | n + 1, c :: cs => dropBytes (n + 1 - c.utf8Size) cs

/-- The characters that start before byte offset `n`. -/
def takeBytes : Nat → List Char → List Char
  | 0, _ => []
  | _ + 1, [] => []
  | n + 1, c :: cs => c :: takeBytes (n + 1 - c.utf8Size) cs

theorem takeBytes_append_dropBytes (n : Nat) (cs : List Char) :
    takeBytes n cs ++ dropBytes n cs = cs := by
  induction cs generalizing n with
  | nil => cases n <;> rfl
  | cons c cs ih => cases n <;> simp [takeBytes, dropBytes, ih]

theorem dropBytes_byteLength (cs ds : List Char) : dropBytes (byteLength cs) (cs ++ ds) = ds := by
  induction cs with
  | nil => cases ds <;> rfl
  | cons c cs ih =>
    obtain ⟨n, hn⟩ : ∃ n, byteLength (c :: cs) = n + 1 :=
      ⟨byteLength (c :: cs) - 1, by have := c.utf8Size_pos; simp; omega⟩
    have hr : n + 1 - c.utf8Size = byteLength cs := by simp at hn; omega
    rw [hn, List.cons_append, dropBytes, hr, ih]

theorem takeBytes_byteLength (cs ds : List Char) : takeBytes (byteLength cs) (cs ++ ds) = cs := by
  have h := takeBytes_append_dropBytes (byteLength cs) (cs ++ ds)
  rw [dropBytes_byteLength] at h
  exact List.append_cancel_right h

namespace Span

def point (offset : Nat) : Span := ⟨offset, offset⟩

def merge (s t : Span) : Span := ⟨min s.start t.start, max s.stop t.stop⟩

/-- The part of a text that the span covers. -/
def slice (s : Span) (cs : List Char) : List Char :=
  takeBytes (s.stop - s.start) (dropBytes s.start cs)

/-- The span kept inside a text of `length` bytes and, while the text has room, not empty. -/
def clamp (s : Span) (length : Nat) : Span :=
  let start := min s.start length
  let stop := max (min s.stop length) start
  if start = stop then ⟨start, min (stop + 1) length⟩ else ⟨start, stop⟩

theorem clamp_of_inside (s : Span) {length : Nat} (hs : s.start < s.stop) (hl : s.stop ≤ length) :
    s.clamp length = s := by
  have h1 : min s.start length = s.start := by omega
  have h2 : max (min s.stop length) s.start = s.stop := by omega
  simp only [clamp, h1, h2]
  rw [if_neg (by omega)]

theorem clamp_point_end (length : Nat) : (point length).clamp length = point length := by
  simp [clamp, point]

theorem slice_append (before inside after : List Char) :
    slice ⟨byteLength before, byteLength before + byteLength inside⟩ (before ++ (inside ++ after)) =
      inside := by
  simp only [slice, dropBytes_byteLength]
  rw [show byteLength before + byteLength inside - byteLength before = byteLength inside by omega,
    takeBytes_byteLength]

end Span

end Unmarshal.Text
