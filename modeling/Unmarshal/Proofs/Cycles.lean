import Unmarshal.Proofs.Calls
import Unmarshal.Proofs.FirstFailure

/-!
# Reported cycles

A chain of aliases that is reported as recursive is a cycle of the table: it starts and ends with
the alias that was met again, goes from each alias to one that its entry mentions, and passes no
alias twice on the way. What was expanded before the cycle was entered is not part of it.
-/
namespace Unmarshal

open Relation

namespace AliasTable

variable {table : AliasTable}

/-- Something that is asked of a table fails with an error: a value, the arguments of a call, or a
function. -/
inductive FailsWith (table : AliasTable) : ResolveError → Prop where
  | value {options : Options} {base : String} {shape : Shape} {source : Expr}
      {target : Option Expr} {e : ResolveError}
      (h : table.resolve options base shape source target = .error e) : FailsWith table e
  | arguments {options : Options} {params : List Param} {e : ResolveError}
      (h : table.resolveArguments options params = .error e) : FailsWith table e
  | function {options : Options} {signature : Signature} {e : ResolveError}
      (h : table.bind options signature = .error e) : FailsWith table e

theorem bind_eq_error_iff {options : Options} {signature : Signature} {e : ResolveError} :
    table.bind options signature = .error e ↔
      table.layoutParams 0 signature.params = .error e := by
  unfold bind
  cases table.layoutParams 0 signature.params <;> simp [Except.map]

theorem exists_firstFailure_of_layoutParams {params : List Param} {e : ResolveError}
    (h : table.layoutParams 0 params = .error e) :
    ∃ shape cause, table.FirstFailure [] shape cause ∧ e.rootCause = cause.rootCause := by
  obtain ⟨-, param, -, cause, -, -, hcause, rfl⟩ := exists_of_layoutParams_error h
  exact ⟨param.shape, cause, layout_eq_error_iff.mp hcause, rfl⟩

theorem FailsWith.exists_firstFailure {e : ResolveError} (h : table.FailsWith e) :
    ∃ shape cause, table.FirstFailure [] shape cause ∧ e.rootCause = cause.rootCause := by
  cases h with
  | value h => exact ⟨_, e, layout_eq_error_iff.mp ((resolve_eq_error_iff ..).mp h), rfl⟩
  | arguments h =>
    exact exists_firstFailure_of_layoutParams (resolveArguments_eq_error_iff.mp h)
  | function h => exact exists_firstFailure_of_layoutParams (bind_eq_error_iff.mp h)

/-- A failure whose cause is a recursive alias is met in a call for an alias that is being
expanded. -/
theorem FirstFailure.exists_call {path : List String} {shape : Shape} {e : ResolveError}
    {chain : List String} (h : table.FirstFailure path shape e)
    (hroot : e.rootCause = .recursiveAlias chain) :
    ∃ visited name, ReflTransGen table.Calls ⟨path, shape⟩ ⟨visited, .named name⟩ ∧
      Scalar.ofName? name = none ∧ name ∈ visited ∧ chain = cycle visited name := by
  induction h with
  | unknown => cases hroot
  | @visited path name hn hp =>
    cases hroot
    exact ⟨path, name, .refl, hn, hp, rfl⟩
  | entry hn hp hf _ ih =>
    obtain ⟨visited, name, hcalls, hcycle⟩ := ih hroot
    exact ⟨visited, name, .head (.entry hn hp hf) hcalls, hcycle⟩
  | pointee _ ih =>
    obtain ⟨visited, name, hcalls, hcycle⟩ := ih hroot
    exact ⟨visited, name, .head (.pointee ..) hcalls, hcycle⟩
  | element _ ih =>
    obtain ⟨visited, name, hcalls, hcycle⟩ := ih hroot
    exact ⟨visited, name, .head (.element ..) hcalls, hcycle⟩
  | field _ _ ih =>
    obtain ⟨visited, name, hcalls, hcycle⟩ := ih hroot
    exact ⟨visited, name, .head (.field _ (by simp)) hcalls, hcycle⟩

/-- The aliases of a chain are those of a cycle of the table, each once, but for the last, which is
the first again. -/
structure IsCycle (table : AliasTable) (chain : List String) : Prop where
  two_le_length : 2 ≤ chain.length
  closed : chain.head? = chain.getLast?
  distinct : chain.dropLast.Nodup
  notScalar : ∀ name ∈ chain, Scalar.ofName? name = none
  known : ∀ name ∈ chain, name ∈ table.keys
  linked : chain.IsChain fun outer inner =>
    ∃ shape, table.find? outer = some shape ∧ inner ∈ shape.names

/-- What was expanded since an alias and before it is met again, the newest first. -/
def sinceExpansion (path : List String) (name : String) : List String :=
  path.takeWhile fun visited => visited != name

theorem exists_eq_sinceExpansion_append {path : List String} {name : String} (hp : name ∈ path) :
    ∃ before, path = sinceExpansion path name ++ name :: before := by
  induction path with
  | nil => cases hp
  | cons visited path ih =>
    by_cases heq : visited = name
    · exact ⟨path, by simp [sinceExpansion, heq]⟩
    · obtain ⟨before, hbefore⟩ := ih (by simpa [Ne.symm heq] using hp)
      refine ⟨before, ?_⟩
      rw [sinceExpansion, List.takeWhile_cons_of_pos (by simpa using heq), List.cons_append]
      exact congrArg (visited :: ·) hbefore

/-- An alias of the shape that is being expanded closes a cycle. -/
theorem Tracks.isCycle {path : List String} {name : String}
    (h : table.Tracks ⟨path, .named name⟩) (hn : Scalar.ofName? name = none) (hp : name ∈ path) :
    table.IsCycle (cycle path name) := by
  obtain ⟨before, hpath⟩ := exists_eq_sinceExpansion_append hp
  have hcycle : cycle path name = (sinceExpansion path name ++ [name]).reverse ++ [name] := by
    simp [cycle, sinceExpansion]
  have hprefix : sinceExpansion path name ++ [name] <+: path := ⟨before, by simp [← hpath]⟩
  have hmem : ∀ x ∈ cycle path name, x ∈ path := by
    intro x hx
    rw [hcycle, List.mem_append, List.mem_reverse, List.mem_singleton] at hx
    rcases hx with hx | rfl
    · exact hprefix.subset hx
    · exact hp
  -- the links of the path, and the one from its newest alias to the alias that is met again
  have hlinked : (name :: (sinceExpansion path name ++ [name])).IsChain
      fun inner outer => table.Mentions outer inner := by
    refine List.isChain_cons.mpr ⟨fun newest hnewest => ?_, h.linked.prefix hprefix⟩
    refine h.leaves newest ?_ name (by simp [Shape.aliases, Shape.names, hn])
    rw [hpath]
    simpa using hnewest
  exact {
    two_le_length := by simp [cycle]
    closed := by
      rw [hcycle, List.getLast?_concat]
      simp
    distinct := by
      rw [hcycle, List.dropLast_concat, List.nodup_reverse]
      exact h.distinct.sublist hprefix.sublist
    notScalar := fun x hx => h.notScalar x (hmem x hx)
    known := fun x hx => h.known x (hmem x hx)
    linked := by
      rw [hcycle, ← List.reverse_cons, List.isChain_reverse]
      refine hlinked.imp fun inner outer hmentions => ?_
      obtain ⟨shape, hf, hinner⟩ := hmentions
      exact ⟨shape, hf, (Shape.mem_aliases.mp hinner).1⟩ }

/-- A failure that is caused by a recursive alias reports a cycle of the table. -/
theorem recursiveAlias_isCycle {e : ResolveError} {chain : List String} (h : table.FailsWith e)
    (hroot : e.rootCause = .recursiveAlias chain) : table.IsCycle chain := by
  obtain ⟨shape, cause, hfirst, hcause⟩ := h.exists_firstFailure
  rw [hcause] at hroot
  obtain ⟨visited, name, hcalls, hn, hp, rfl⟩ := hfirst.exists_call hroot
  exact ((table.tracks_start shape).of_reflTransGen hcalls).isCycle hn hp

/-- A basket leads to a cycle that it does not lie on, past a field that resolves. -/
def baskets : AliasTable :=
  ⟨[("Basket", .record [⟨"Label", .named "Label"⟩,
      ⟨"Orders", .sequence (.named "Order") .dynamic⟩]),
    ("Label", .named "string"),
    ("Order", .record [⟨"Label", .named "Label"⟩, ⟨"Items", .sequence (.named "Item") (.fixed 2)⟩]),
    ("Item", .optional (.named "Order"))], by decide⟩

def checkOut : Signature := ⟨"CheckOut", [⟨"basket", .optional (.named "Basket")⟩]⟩

theorem recursiveAlias_isCycle_baskets :
    ∃ e, baskets.bind {} checkOut = .error e ∧
      e.rootCause = .recursiveAlias ["Order", "Item", "Order"] ∧
      baskets.IsCycle ["Order", "Item", "Order"] := by
  have herror : baskets.bind {} checkOut = .error (.inArgument 0 "basket"
      (.optional (.named "Basket")) (.inPointee (.named "Basket")
        (.inField "Orders" (.sequence (.named "Order") .dynamic) (.inElement (.named "Order")
          (.inField "Items" (.sequence (.named "Item") (.fixed 2)) (.inElement (.named "Item")
            (.inPointee (.named "Order") (.recursiveAlias ["Order", "Item", "Order"])))))))) := by
    cbv
  exact ⟨_, herror, rfl, recursiveAlias_isCycle (.function herror) rfl⟩

end AliasTable

end Unmarshal
