import Mathlib.Algebra.GroupWithZero.Nat
import Mathlib.Data.List.Chain
import Mathlib.Data.List.Nodup
import Mathlib.Data.List.Perm.Subperm
import Mathlib.Order.WellFounded
import Unmarshal.Proofs.Aliases

/-!
# Calls of a resolution

Following the names of a shape calls itself for the parts of the shape and for the entries of its
aliases, below the aliases that are being expanded. Those are distinct and each is mentioned by the
one before it, so a call leaves fewer aliases to expand or a smaller shape, and the calls end on
every table, whether or not its entries form cycles.
-/
namespace Unmarshal

namespace Shape

mutual

/-- How many nodes a shape has. -/
def size : Shape → Nat
  | .named _ => 1
  | .optional pointee => size pointee + 1
  | .sequence elem _ => size elem + 1
  | .record fields => sizeOfFields fields + 1

def sizeOfFields : List (Field Shape) → Nat
  | [] => 0
  | ⟨_, type⟩ :: fields => size type + sizeOfFields fields

end

theorem size_le_sizeOfFields {fields : List (Field Shape)} {f : Field Shape} (hf : f ∈ fields) :
    f.type.size ≤ sizeOfFields fields := by
  induction fields with
  | nil => cases hf
  | cons g fields ih =>
    obtain ⟨name, type⟩ := g
    rw [sizeOfFields]
    rcases List.mem_cons.mp hf with rfl | hf
    · exact Nat.le_add_right ..
    · exact Nat.le_add_left_of_le (ih hf)

end Shape

/-- The layout of a field, given what is answered for its type. -/
def Field.answer (f : Field Shape) : Except ResolveError Layout → Except ResolveError (Field Layout)
  | .ok layout => .ok ⟨f.name, layout⟩
  | .error e => .error (.inField f.name f.type e)

theorem Shape.layoutFields_eq_mapM (leaf : String → Except ResolveError Layout)
    (fields : List (Field Shape)) :
    layoutFields leaf fields = fields.mapM fun f => f.answer (f.type.layoutWith leaf) := by
  induction fields with
  | nil => rfl
  | cons f fields ih =>
    obtain ⟨name, type⟩ := f
    rw [layoutFields, ih, List.mapM_cons]
    cases type.layoutWith leaf with
    | error e => rfl
    | ok layout => cases fields.mapM fun f => f.answer (f.type.layoutWith leaf) <;> rfl

/-- A call of the resolution: a shape, below the aliases that are being expanded, the newest
first. -/
structure Call where
  path : List String
  shape : Shape

private theorem mapM_congr {α β ε : Type} {f g : α → Except ε β} {as : List α}
    (h : ∀ a ∈ as, f a = g a) : as.mapM f = as.mapM g := by
  induction as with
  | nil => rfl
  | cons a as ih =>
    rw [List.mapM_cons, List.mapM_cons, h a (by simp), ih fun b hb => h b (by simp [hb])]

namespace AliasTable

variable {table : AliasTable} {call next : Call}

/-- What a call answers, given the answers of the calls that it makes. Fields are asked for in
order, up to the first failure. -/
def answerWith (table : AliasTable) (ask : Call → Except ResolveError Layout) :
    Call → Except ResolveError Layout
  | ⟨path, .named name⟩ =>
    match Scalar.ofName? name with
    | some scalar => .ok (.scalar (.named name) scalar)
    | none =>
      if name ∈ path then .error (.recursiveAlias (cycle path name))
      else
        match table.find? name with
        | none => .error (.unresolved name)
        | some shape => (ask ⟨name :: path, shape⟩).map (·.declaredAs (.named name))
  | ⟨path, .optional pointee⟩ =>
    match ask ⟨path, pointee⟩ with
    | .ok layout => .ok (.optional (.optional pointee) layout)
    | .error e => .error (.inPointee pointee e)
  | ⟨path, .sequence elem extent⟩ =>
    match ask ⟨path, elem⟩ with
    | .ok layout => .ok (.sequence (.sequence elem extent) layout extent)
    | .error e => .error (.inElement elem e)
  | ⟨path, .record fields⟩ =>
    (fields.mapM fun f : Field Shape => f.answer (ask ⟨path, f.type⟩)).map
      (.record (.record fields))

/-- The calls that a call may make: for the entry of an alias that is not being expanded yet, and
for every part of a shape. -/
inductive Calls (table : AliasTable) : Call → Call → Prop where
  | entry {path : List String} {name : String} {shape : Shape} (hn : Scalar.ofName? name = none)
      (hp : name ∉ path) (hf : table.find? name = some shape) :
      Calls table ⟨path, .named name⟩ ⟨name :: path, shape⟩
  | pointee (path : List String) (pointee : Shape) :
      Calls table ⟨path, .optional pointee⟩ ⟨path, pointee⟩
  | element (path : List String) (elem : Shape) (extent : Extent) :
      Calls table ⟨path, .sequence elem extent⟩ ⟨path, elem⟩
  | field (path : List String) {fields : List (Field Shape)} {f : Field Shape} (hf : f ∈ fields) :
      Calls table ⟨path, .record fields⟩ ⟨path, f.type⟩

/-- The calls that are made, directly or further in, for a shape that is resolved. -/
def CallFor (table : AliasTable) (shape : Shape) : Call → Prop :=
  Relation.ReflTransGen table.Calls ⟨[], shape⟩

/-- A call asks for nothing but the answers of the calls that it may make. -/
theorem answerWith_congr {ask other : Call → Except ResolveError Layout}
    (h : ∀ next, table.Calls call next → ask next = other next) :
    table.answerWith ask call = table.answerWith other call := by
  obtain ⟨path, shape⟩ := call
  cases shape with
  | named name =>
    simp only [answerWith]
    split
    · rfl
    · next hn =>
      split
      · rfl
      · next hp =>
        split
        · rfl
        · next hf => rw [h _ (.entry hn hp hf)]
  | optional pointee => simp only [answerWith, h _ (.pointee ..)]
  | sequence elem extent => simp only [answerWith, h _ (.element ..)]
  | record fields =>
    simp only [answerWith]
    rw [mapM_congr fun f hf => by rw [h _ (.field path hf)]]

/-- Following the names of a shape is such a call at every place. -/
theorem layoutWith_follow (table : AliasTable) (call : Call) :
    call.shape.layoutWith (table.follow call.path) =
      table.answerWith (fun next => next.shape.layoutWith (table.follow next.path)) call := by
  obtain ⟨path, shape⟩ := call
  cases shape with
  | named name =>
    simp only [answerWith, Shape.layoutWith]
    split
    · next hn => exact follow_scalar hn
    · next hn =>
      split
      · next hp => exact follow_visited hn hp
      · next hp =>
        split
        · next hf => exact follow_unknown hn hp hf
        · next hf => exact follow_entry hn hp hf
  | optional pointee => rfl
  | sequence elem extent => rfl
  | record fields =>
    rw [answerWith, Shape.layoutWith, Shape.layoutFields_eq_mapM]
    cases fields.mapM fun f => f.answer (f.type.layoutWith (table.follow path)) <;> rfl

/-! ## The path of a call -/

/-- The aliases on the path of a call have entries and are distinct, each is mentioned by the one
that was expanded before it, and the newest one mentions the aliases of the shape. -/
structure Tracks (table : AliasTable) (call : Call) : Prop where
  distinct : call.path.Nodup
  known : ∀ name ∈ call.path, name ∈ table.keys
  notScalar : ∀ name ∈ call.path, Scalar.ofName? name = none
  linked : call.path.IsChain fun inner outer => table.Mentions outer inner
  leaves : ∀ newest ∈ call.path.head?, ∀ name ∈ call.shape.aliases, table.Mentions newest name

theorem tracks_start (table : AliasTable) (shape : Shape) : table.Tracks ⟨[], shape⟩ where
  distinct := List.nodup_nil
  known := by simp
  notScalar := by simp
  linked := .nil
  leaves := by simp

/-- A part of the shape of a call, whose aliases are among those of the shape. -/
theorem Tracks.part {path : List String} {shape part : Shape} (h : table.Tracks ⟨path, shape⟩)
    (hpart : ∀ name ∈ part.aliases, name ∈ shape.aliases) : table.Tracks ⟨path, part⟩ where
  distinct := h.distinct
  known := h.known
  notScalar := h.notScalar
  linked := h.linked
  leaves := fun newest hnewest name hname => h.leaves newest hnewest name (hpart name hname)

theorem Tracks.entry {path : List String} {name : String} {shape : Shape}
    (h : table.Tracks ⟨path, .named name⟩) (hn : Scalar.ofName? name = none) (hp : name ∉ path)
    (hf : table.find? name = some shape) : table.Tracks ⟨name :: path, shape⟩ where
  distinct := List.nodup_cons.mpr ⟨hp, h.distinct⟩
  known := List.forall_mem_cons.mpr ⟨mem_keys_of_find? hf, h.known⟩
  notScalar := List.forall_mem_cons.mpr ⟨hn, h.notScalar⟩
  linked := by
    refine List.isChain_cons.mpr ⟨fun outer houter => ?_, h.linked⟩
    exact h.leaves outer houter name (by simp [Shape.aliases, Shape.names, hn])
  leaves := by
    intro newest hnewest inner hinner
    obtain rfl : name = newest := by simpa using hnewest
    exact ⟨shape, hf, hinner⟩

/-- One call hands its path on as it has to be. -/
theorem Tracks.calls (h : table.Tracks call) (hcall : table.Calls call next) :
    table.Tracks next := by
  cases hcall with
  | entry hn hp hf => exact h.entry hn hp hf
  | pointee => exact h.part fun name hname => hname
  | element => exact h.part fun name hname => hname
  | field path hf =>
    refine h.part fun name hname => ?_
    obtain ⟨hmem, hnone⟩ := Shape.mem_aliases.mp hname
    exact Shape.mem_aliases.mpr ⟨Shape.mem_namesOfFields.mpr ⟨_, hf, hmem⟩, hnone⟩

theorem Tracks.of_reflTransGen (h : table.Tracks call)
    (hcalls : Relation.ReflTransGen table.Calls call next) : table.Tracks next := by
  induction hcalls with
  | refl => exact h
  | tail _ hcall ih => exact ih.calls hcall

theorem Tracks.length_path_le (h : table.Tracks call) : call.path.length ≤ table.size := by
  have hle := (h.distinct.subperm h.known).length_le
  simpa [keys, size] using hle

/-! ## What decreases -/

/-- How many names of the table are not being expanded, and the size of the shape. -/
def measure (table : AliasTable) (call : Call) : Nat × Nat :=
  (table.unvisited call.path, call.shape.size)

theorem measure_lt_of_calls (h : table.Calls call next) :
    Prod.Lex (· < ·) (· < ·) (table.measure next) (table.measure call) := by
  cases h with
  | entry hn hp hf => exact .left _ _ (unvisited_cons_lt (mem_keys_of_find? hf) hp)
  | pointee | element => exact .right _ (Nat.lt_succ_self _)
  | field path hf => exact .right _ (Nat.lt_succ_of_le (Shape.size_le_sizeOfFields hf))

/-- The sizes of the entries that are not being expanded, together. -/
def unexpandedSize (table : AliasTable) (path : List String) : Nat :=
  ((table.entries.filter fun entry => decide (entry.1 ∉ path)).map fun entry => entry.2.size).sum

theorem unexpandedSize_cons {path : List String} {name : String} {shape : Shape}
    (hp : name ∉ path) (hf : table.find? name = some shape) :
    table.unexpandedSize path = shape.size + table.unexpandedSize (name :: path) := by
  obtain ⟨before, after, hentries, -⟩ := List.lookup_eq_some_iff.mp hf
  have hdistinct := table.distinct
  rw [hentries, List.map_append, List.map_cons, List.nodup_middle, List.nodup_cons] at hdistinct
  -- no other entry has the name, so leaving it out of a part of the table changes nothing
  have hothers (entries : List (String × Shape)) (hnew : name ∉ entries.map Prod.fst) :
      entries.filter (fun entry => decide (entry.1 ∉ name :: path)) =
        entries.filter fun entry => decide (entry.1 ∉ path) := by
    apply List.filter_congr
    intro entry hentry
    have hne : entry.1 ≠ name := fun heq => hnew (heq ▸ List.mem_map_of_mem hentry)
    simp [hne]
  simp only [List.mem_append, not_or] at hdistinct
  simp only [unexpandedSize, hentries, List.filter_append, List.filter_cons, hp,
    hothers before hdistinct.1.1, hothers after hdistinct.1.2]
  simp
  omega

/-- How far in calls can go: every call makes the shape smaller or brings in the entry of an alias,
which it then is not asked for again. -/
def weight (table : AliasTable) (call : Call) : Nat :=
  call.shape.size + table.unexpandedSize call.path

theorem weight_lt_of_calls (h : table.Calls call next) : table.weight next < table.weight call := by
  cases h with
  | entry hn hp hf =>
    have hsize := unexpandedSize_cons hp hf
    simp only [weight, Shape.size]
    omega
  | pointee | element =>
    simp only [weight, Shape.size]
    omega
  | field path hf =>
    have hsize := Shape.size_le_sizeOfFields hf
    simp only [weight, Shape.size]
    omega

/-! ## The end of the calls -/

/-- What a call answers if calls are made to a depth only, and those further in are answered by
`beyond`. -/
def answerWithin (table : AliasTable) (beyond : Call → Except ResolveError Layout) :
    Nat → Call → Except ResolveError Layout
  | 0, call => beyond call
  | depth + 1, call => table.answerWith (table.answerWithin beyond depth) call

/-- No call is made further in than the weight of a call. -/
theorem answerWithin_eq (beyond : Call → Except ResolveError Layout) {depth : Nat}
    (h : table.weight call < depth) :
    table.answerWithin beyond depth call = call.shape.layoutWith (table.follow call.path) := by
  induction depth generalizing call with
  | zero => omega
  | succ depth ih =>
    rw [answerWithin, layoutWith_follow]
    apply answerWith_congr
    intro next hcall
    have hlt := weight_lt_of_calls hcall
    exact ih (by omega)

/-- Nothing is expanded twice on the way to a call, so the resolution of a shape ends on every
table: wherever it asks for the answer of another call, fewer names are left to expand or the shape
is smaller; no sequence of calls goes on for ever; and the outcome needs no call further in than
the sizes of the shape and of all entries together. -/
theorem resolution_ends (table : AliasTable) (shape : Shape) :
    (∀ call, table.CallFor shape call →
      call.path.Nodup ∧ (∀ name ∈ call.path, name ∈ table.keys) ∧
        call.path.length ≤ table.size ∧
        (∀ ask other : Call → Except ResolveError Layout,
          (∀ next, table.Calls call next → ask next = other next) →
            table.answerWith ask call = table.answerWith other call) ∧
        ∀ next, table.Calls call next →
          Prod.Lex (· < ·) (· < ·) (table.measure next) (table.measure call)) ∧
    (¬ ∃ calls : Nat → Call, calls 0 = ⟨[], shape⟩ ∧ ∀ n, table.Calls (calls n) (calls (n + 1))) ∧
    ∀ (beyond : Call → Except ResolveError Layout) (depth : Nat),
      shape.size + (table.entries.map fun entry => entry.2.size).sum < depth →
      ∀ (options : Options) (base : String) (source : Expr) (target : Option Expr),
        table.resolve options base shape source target =
          (table.answerWithin beyond depth ⟨[], shape⟩).map fun layout =>
            layout.emit options base source target (.reserved options) := by
  refine ⟨?_, ?_, ?_⟩
  · intro call hcall
    have htracks := (table.tracks_start shape).of_reflTransGen hcall
    exact ⟨htracks.distinct, htracks.known, htracks.length_path_le,
      fun ask other h => answerWith_congr h, fun next hnext => measure_lt_of_calls hnext⟩
  · rintro ⟨calls, -, hcalls⟩
    obtain ⟨n, hn⟩ := WellFounded.not_rel_apply_succ (r := Prod.Lex (· < ·) (· < ·))
      fun n => table.measure (calls n)
    exact hn (measure_lt_of_calls (hcalls n))
  · intro beyond depth hdepth options base source target
    have hweight : table.weight ⟨[], shape⟩ < depth := by
      simpa [weight, unexpandedSize] using hdepth
    rw [answerWithin_eq beyond hweight, resolve, layout]
    cases shape.layoutWith (table.follow []) <;> rfl

end AliasTable

end Unmarshal
