import Unmarshal.Proofs.TypeText.Tiling

/-!
# Cutting a text between tokens

A text can be cut at every byte that lies inside no token: its tokens are those of the two parts,
each at its place. So blanks at such a byte move the tokens behind it and change none, and tokens
in front of it are there whatever follows.
-/
namespace Unmarshal.TypeText

open Text

/-- The byte lies inside none of the tokens. -/
def Between (ts : List Token) (offset : Nat) : Prop :=
  ∀ token ∈ ts, token.span.stop ≤ offset ∨ offset ≤ token.span.start

instance (ts : List Token) (offset : Nat) : Decidable (Between ts offset) :=
  inferInstanceAs (Decidable (∀ token ∈ ts, _))

/-! ## Order -/

namespace Tiles

variable {offset : Nat} {cs : List Char} {ts before after : List Token} {token : Token}

/-- Tokens lie in their text, and none is empty. -/
theorem bounds (h : Tiles offset cs ts) : ∀ token ∈ ts, offset ≤ token.span.start ∧
    token.span.start < token.span.stop ∧ token.span.stop ≤ offset + byteLength cs := by
  induction h with
  | nil => simp
  | @cons offset blanks rest first ts _ hne _ hspan _ ih =>
    have hlength := byteLength_pos hne
    rw [List.forall_mem_cons]
    constructor
    · rw [hspan]
      simp only [byteLength_append]
      omega
    · intro token htoken
      have hbounds := ih token htoken
      rw [hspan] at hbounds
      simp only [byteLength_append] at hbounds ⊢
      omega

/-- No token starts before those in front of it stop. -/
theorem ordered (h : Tiles offset cs ts) :
    ts.Pairwise fun first second => first.span.stop ≤ second.span.start := by
  induction h with
  | nil => exact .nil
  | cons _ _ _ _ hrest ih => exact .cons (fun token htoken => (hrest.bounds token htoken).1) ih

/-- The tokens in front of a token, the token itself and those behind it. -/
theorem around (h : Tiles offset cs (before ++ token :: after)) :
    (∀ other ∈ before, other.span.stop ≤ token.span.start) ∧
      token.span.start < token.span.stop ∧
      ∀ other ∈ after, token.span.stop ≤ other.span.start ∧ other.span.start < other.span.stop := by
  obtain ⟨-, hrest, hbefore⟩ := List.pairwise_append.mp h.ordered
  refine ⟨fun other hother => hbefore other hother token (.head _),
    (h.bounds token (by simp)).2.1, ?_⟩
  intro other hother
  exact ⟨(List.pairwise_cons.mp hrest).1 other hother, (h.bounds other (by simp [hother])).2.1⟩

end Tiles

/-! ## Two parts -/

section

variable {continues : Char → Bool} {cs back : List Char}

/-- A run of characters that does not go on behind `cs` is that of `cs`. -/
theorem munch_append (h : cs.dropWhile continues = [] → back.takeWhile continues = []) :
    (cs ++ back).takeWhile continues = cs.takeWhile continues ∧
      (cs ++ back).dropWhile continues = cs.dropWhile continues ++ back := by
  induction cs with
  | nil =>
    have hnone := h rfl
    have hback := List.takeWhile_append_dropWhile (p := continues) (l := back)
    rw [hnone, List.nil_append] at hback
    exact ⟨hnone, hback⟩
  | cons c cs ih =>
    by_cases hc : continues c = true
    · simp only [List.dropWhile_cons, hc, if_true] at h
      simp [hc, ih h]
    · simp [hc]

/-- A run of characters that takes all of `cs` goes on behind it. -/
theorem munch_all (h : cs.dropWhile continues = []) :
    cs.takeWhile continues = cs ∧
      (cs ++ back).takeWhile continues = cs ++ back.takeWhile continues := by
  have hcs : cs.takeWhile continues = cs := by
    have hsplit := List.takeWhile_append_dropWhile (p := continues) (l := cs)
    rwa [h, List.append_nil] at hsplit
  refine ⟨hcs, List.takeWhile_append_of_pos ?_⟩
  intro d hd
  rw [← hcs] at hd
  exact List.all_eq_true.mp List.all_takeWhile d hd

theorem byteLength_munch (continues : Char → Bool) (cs : List Char) :
    byteLength (cs.takeWhile continues) + byteLength (cs.dropWhile continues) = byteLength cs := by
  rw [← byteLength_append, List.takeWhile_append_dropWhile]

/-- A run of characters behind `c` that is cut where it does not go on, with the byte of the cut
counted from the end of the run. -/
private theorem munch_of_between {offset : Nat} {c : Char}
    (h : offset + byteLength (c :: (cs ++ back).takeWhile continues) ≤
        offset + byteLength (c :: cs) ∨ offset + byteLength (c :: cs) ≤ offset) :
    (cs ++ back).takeWhile continues = cs.takeWhile continues ∧
      (cs ++ back).dropWhile continues = cs.dropWhile continues ++ back ∧
      offset + byteLength (c :: cs) = offset + byteLength (c :: cs.takeWhile continues) +
        byteLength (cs.dropWhile continues) := by
  have hmunch : cs.dropWhile continues = [] → back.takeWhile continues = [] := by
    intro hall
    have hc := c.utf8Size_pos
    rw [(munch_all hall).2] at h
    simp only [byteLength_cons, byteLength_append] at h
    cases hrest : back.takeWhile continues with
    | nil => rfl
    | cons d rest =>
      have hd := d.utf8Size_pos
      rw [hrest, byteLength_cons] at h
      omega
  obtain ⟨htake, hdrop⟩ := munch_append hmunch
  refine ⟨htake, hdrop, ?_⟩
  simp only [byteLength_cons, ← byteLength_munch continues cs, Nat.add_assoc]

end

private theorem scan_append {offset : Nat} {front : List Char} (back : List Char)
    (h : Between (scan offset (front ++ back)) (offset + byteLength front)) :
    scan offset (front ++ back) =
      scan offset front ++ scan (offset + byteLength front) back := by
  induction offset, front using scan.induct with
  | case1 offset => simp [scan]
  | case2 offset c cs hb ih =>
    rw [List.cons_append, scan, if_pos hb, byteLength_cons, ← Nat.add_assoc] at h ⊢
    rw [scan, if_pos hb, ih h]
  | case3 offset c cs hb hs ih =>
    rw [List.cons_append, scan, if_neg hb, if_pos hs] at h ⊢
    obtain ⟨htake, hdrop, hlength⟩ := munch_of_between (h _ (.head _))
    rw [htake, hdrop, hlength] at h ⊢
    rw [scan, if_neg hb, if_pos hs, ih fun token htoken => h token (.tail _ htoken),
      List.cons_append]
  | case4 offset c cs hb hs hd ih =>
    rw [List.cons_append, scan, if_neg hb, if_neg hs, if_pos hd] at h ⊢
    obtain ⟨htake, hdrop, hlength⟩ := munch_of_between (h _ (.head _))
    rw [htake, hdrop, hlength] at h ⊢
    rw [scan, if_neg hb, if_neg hs, if_pos hd, ih fun token htoken => h token (.tail _ htoken),
      List.cons_append]
  | case5 offset c cs hb hs hd ih =>
    rw [List.cons_append, scan, if_neg hb, if_neg hs, if_neg hd, byteLength_cons,
      ← Nat.add_assoc] at h ⊢
    rw [scan, if_neg hb, if_neg hs, if_neg hd, ih fun token htoken => h token (.tail _ htoken),
      List.cons_append]

/-- A text that is cut between tokens says what its parts say. -/
theorem scan_cut {front back : List Char}
    (h : Between (scan 0 (front ++ back)) (byteLength front)) :
    scan 0 (front ++ back) = scan 0 front ++ scan (byteLength front) back := by
  rw [← Nat.zero_add (byteLength front)] at h ⊢
  exact scan_append back h

/-- A member of two joined lists stands in the first or in the second. -/
theorem append_eq_append_cons {α : Type} {first second before after : List α} {a : α}
    (h : first ++ second = before ++ a :: after) :
    (∃ more, first = before ++ a :: more) ∨
      ∃ more, before = first ++ more ∧ second = more ++ a :: after := by
  rcases List.append_eq_append_iff.mp h with ⟨more, hbefore, hsecond⟩ | ⟨more, hfirst, hafter⟩
  · exact .inr ⟨more, hbefore, hsecond⟩
  · cases more with
    | nil => exact .inr ⟨[], by simpa using hfirst.symm, hafter.symm⟩
    | cons b more =>
      obtain ⟨rfl, -⟩ := List.cons.inj hafter
      exact .inl ⟨more, hfirst⟩

/-- A blank lies in no token, so a text can be cut in front of it. -/
theorem between_of_blank {front back : List Char} {c : Char} (hc : isBlank c = true) :
    Between (scan 0 (front ++ c :: back)) (byteLength front) := by
  intro token htoken
  obtain ⟨before, after, hts⟩ := List.append_of_mem htoken
  have htiles := tiles_scan 0 (front ++ c :: back)
  rw [hts] at htiles
  obtain ⟨first, rest, hcs, hspan, -, hsolid, -⟩ := htiles.split
  rw [hspan]
  rcases append_eq_append_cons hcs.symm with ⟨more, rfl⟩ | ⟨behind, rfl, hbehind⟩
  · right
    simp only [byteLength_append]
    omega
  · rcases append_eq_append_cons hbehind with ⟨more, hchars⟩ | ⟨further, rfl, -⟩
    · have hfalse := hsolid c (by simp [hchars])
      rw [hc] at hfalse
      cases hfalse
    · left
      simp only [byteLength_append]
      omega

/-- Blanks in front of a text move its tokens. -/
theorem scan_blanks {blanks : List Char} (hblanks : ∀ c ∈ blanks, isBlank c = true) (offset : Nat)
    (cs : List Char) : scan offset (blanks ++ cs) = scan (offset + byteLength blanks) cs := by
  induction blanks generalizing offset with
  | nil => rfl
  | cons c blanks ih =>
    obtain ⟨hc, hblanks⟩ := List.forall_mem_cons.mp hblanks
    rw [List.cons_append, scan, if_pos hc, ih hblanks, byteLength_cons, Nat.add_assoc]

/-! ## Parts of a list of tokens -/

/-- The tokens that stop at the byte or in front of it. -/
def upTo (offset : Nat) (ts : List Token) : List Token :=
  ts.filter fun token => decide (token.span.stop ≤ offset)

section

variable {offset : Nat} {cs front back : List Char} {before after ts : List Token} {token : Token}

theorem Tiles.between_start (h : Tiles offset cs (before ++ token :: after)) :
    Between (before ++ token :: after) token.span.start := by
  obtain ⟨hbefore, hlength, hafter⟩ := h.around
  intro other hother
  simp only [List.mem_append, List.mem_cons] at hother
  rcases hother with hother | rfl | hother
  · exact .inl (hbefore other hother)
  · exact .inr (Nat.le_refl _)
  · have hle := hafter other hother
    omega

theorem upTo_append (hbefore : ∀ token ∈ before, token.span.stop ≤ offset)
    (hafter : ∀ token ∈ after, offset < token.span.stop) :
    upTo offset (before ++ after) = before := by
  rw [upTo, List.filter_append, List.filter_eq_self.mpr (by simpa using hbefore),
    List.filter_eq_nil_iff.mpr (by simpa using hafter), List.append_nil]

theorem Tiles.upTo_stop (h : Tiles offset cs (before ++ token :: after)) :
    upTo token.span.stop (before ++ token :: after) = before ++ [token] := by
  obtain ⟨hbefore, hlength, hafter⟩ := h.around
  rw [List.append_cons]
  apply upTo_append
  · intro other hother
    rcases List.mem_append.mp hother with hother | hother
    · have hle := hbefore other hother
      omega
    · obtain rfl := List.mem_singleton.mp hother
      exact Nat.le_refl _
  · intro other hother
    have hle := hafter other hother
    omega

theorem upTo_eq_nil (h : ∀ token ∈ ts, offset < token.span.stop) : upTo offset ts = [] :=
  @upTo_append offset [] ts (by simp) h

theorem Tiles.upTo_leads {limit : Nat} (h : Tiles offset cs ts) : upTo limit ts <+: ts := by
  induction h with
  | nil => exact List.prefix_rfl
  | @cons offset blanks rest token ts hblanks hne hsolid hspan hrest ih =>
    by_cases hstop : token.span.stop ≤ limit
    · obtain ⟨others, hothers⟩ := ih
      refine ⟨others, ?_⟩
      rw [upTo, List.filter_cons, if_pos (by simpa using hstop), List.cons_append]
      exact congrArg _ hothers
    · rw [upTo_eq_nil]
      · exact List.nil_prefix
      · intro other hother
        rcases List.mem_cons.mp hother with rfl | hother
        · omega
        · have hbounds := hrest.bounds other hother
          omega

theorem upTo_cons_congr {rest : List Token} (token : Token)
    (h : upTo offset ts = upTo offset rest) :
    upTo offset (token :: ts) = upTo offset (token :: rest) := by
  simp only [upTo, List.filter_cons] at h ⊢
  rw [h]

private theorem upTo_long_eq_nil {make : String → Lexeme} {start : Nat} {chars rest : List Char}
    (h : offset < start + byteLength chars) :
    upTo offset (⟨make (String.ofList chars), ⟨start, start + byteLength chars⟩⟩ ::
      scan (start + byteLength chars) rest) = [] := by
  apply upTo_eq_nil
  rw [List.forall_mem_cons]
  refine ⟨h, fun token htoken => ?_⟩
  have hbounds := (tiles_scan _ rest).bounds token htoken
  omega

/-- A token that may go on behind the end of `cs`. It stops in front of the end only if it does not
go on. -/
private theorem upTo_long_append {continues : Char → Bool} {make : String → Lexeme} {c : Char}
    {start : Nat} {more : List Char} (hend : offset < start + byteLength (c :: cs))
    (ih : offset < start + byteLength (c :: cs.takeWhile continues) +
        byteLength (cs.dropWhile continues) →
      upTo offset (scan (start + byteLength (c :: cs.takeWhile continues))
          (cs.dropWhile continues ++ more)) =
        upTo offset (scan (start + byteLength (c :: cs.takeWhile continues))
          (cs.dropWhile continues))) :
    upTo offset (⟨make (String.ofList (c :: (cs ++ more).takeWhile continues)),
        ⟨start, start + byteLength (c :: (cs ++ more).takeWhile continues)⟩⟩ ::
        scan (start + byteLength (c :: (cs ++ more).takeWhile continues))
          ((cs ++ more).dropWhile continues)) =
      upTo offset (⟨make (String.ofList (c :: cs.takeWhile continues)),
        ⟨start, start + byteLength (c :: cs.takeWhile continues)⟩⟩ ::
        scan (start + byteLength (c :: cs.takeWhile continues)) (cs.dropWhile continues)) := by
  have hlength := byteLength_munch continues cs
  simp only [byteLength_cons] at hend
  by_cases hrest : cs.dropWhile continues = []
  · obtain ⟨hcs, hrun⟩ := @munch_all continues cs more hrest
    rw [hrun, hcs, upTo_long_eq_nil, upTo_long_eq_nil]
    · simp only [byteLength_cons]
      omega
    · simp only [byteLength_cons, byteLength_append]
      omega
  · obtain ⟨htake, hdrop⟩ := @munch_append continues cs more fun hnone => absurd hnone hrest
    rw [htake, hdrop]
    apply upTo_cons_congr
    apply ih
    simp only [byteLength_cons]
    omega

/-- What is appended to a text changes none of the tokens that stop in front of its end. -/
theorem upTo_scan_append {start : Nat} (more : List Char) (h : offset < start + byteLength cs) :
    upTo offset (scan start (cs ++ more)) = upTo offset (scan start cs) := by
  induction start, cs using scan.induct with
  | case1 start =>
    rw [List.nil_append, scan]
    apply upTo_eq_nil
    intro token htoken
    have hbounds := (tiles_scan start more).bounds token htoken
    rw [byteLength_nil] at h
    omega
  | case2 start c cs hb ih =>
    rw [byteLength_cons, ← Nat.add_assoc] at h
    rw [List.cons_append, scan, scan, if_pos hb, if_pos hb, ih h]
  | case3 start c cs hb hs ih =>
    rw [List.cons_append, scan, scan, if_neg hb, if_neg hb, if_pos hs, if_pos hs]
    exact upTo_long_append h ih
  | case4 start c cs hb hs hd ih =>
    rw [List.cons_append, scan, scan, if_neg hb, if_neg hb, if_neg hs, if_neg hs, if_pos hd,
      if_pos hd]
    exact upTo_long_append h ih
  | case5 start c cs hb hs hd ih =>
    rw [byteLength_cons, ← Nat.add_assoc] at h
    rw [List.cons_append, scan, scan, if_neg hb, if_neg hb, if_neg hs, if_neg hs, if_neg hd,
      if_neg hd]
    exact upTo_cons_congr _ (ih h)

/-- The tokens up to a cut are those of the text in front of it. -/
theorem upTo_cut (h : Between (scan 0 (front ++ back)) (byteLength front)) :
    upTo (byteLength front) (scan 0 (front ++ back)) = scan 0 front := by
  rw [scan_cut h]
  apply upTo_append
  · intro token htoken
    have hbounds := (tiles_scan 0 front).bounds token htoken
    omega
  · intro token htoken
    have hbounds := (tiles_scan (byteLength front) back).bounds token htoken
    omega

/-- What stands in front of a token, and what the text says from its start on. -/
theorem scan_split (h : scan 0 cs = before ++ token :: after) :
    ∃ front back, cs = front ++ back ∧ token.span.start = byteLength front ∧
      scan 0 front = before ∧ scan (byteLength front) back = token :: after := by
  have htiles := tiles_scan 0 cs
  rw [h] at htiles
  have hbetween := htiles.between_start
  obtain ⟨hbefore, hlength, hafter⟩ := htiles.around
  obtain ⟨front, back, rfl, hspan, -⟩ := htiles.split
  have hstart : token.span.start = byteLength front := by rw [hspan]
  rw [← h, hstart] at hbetween
  rw [hstart] at hbefore
  have hfront : scan 0 front = before := by
    rw [← upTo_cut hbetween, h]
    apply upTo_append hbefore
    intro other hother
    rcases List.mem_cons.mp hother with rfl | hother
    · omega
    · have hle := hafter other hother
      omega
  refine ⟨front, token.chars ++ back, rfl, hstart, hfront, ?_⟩
  have hcut := scan_cut hbetween
  rw [h, hfront] at hcut
  exact (List.append_cancel_left hcut).symm

end

end Unmarshal.TypeText
