import Unmarshal.Shape.Basic

/-!
# Alias tables

A finite map from type names to the shapes they stand for. A name has one entry; a later entry
replaces an earlier one. The shapes may mention names without an entry and may form cycles, which
is found out only where names are followed.
-/
namespace Unmarshal

/-- Type names with the shapes they stand for. -/
structure AliasTable where
  entries : List (String × Shape)
  distinct : (entries.map Prod.fst).Nodup

namespace AliasTable

def empty : AliasTable := ⟨[], List.nodup_nil⟩

instance : Inhabited AliasTable := ⟨empty⟩

/-- The names that have an entry. -/
def keys (table : AliasTable) : List String := table.entries.map Prod.fst

/-- The shape that a name stands for. -/
def find? (table : AliasTable) (name : String) : Option Shape := table.entries.lookup name

def size (table : AliasTable) : Nat := table.entries.length

/-- Lets a name stand for a shape, whatever it stood for before. -/
def insert (table : AliasTable) (name : String) (shape : Shape) : AliasTable where
  entries := (name, shape) :: table.entries.filter fun entry => entry.1 != name
  distinct := by
    simp only [List.map_cons, List.nodup_cons]
    refine ⟨by simp, ?_⟩
    exact (List.filter_sublist.map Prod.fst).nodup table.distinct

/-- The table of a list of entries, of which the last for a name counts. -/
def ofList (entries : List (String × Shape)) : AliasTable :=
  entries.foldl (fun table entry => table.insert entry.1 entry.2) empty

theorem mem_keys_of_find? {table : AliasTable} {name : String} {shape : Shape}
    (h : table.find? name = some shape) : name ∈ table.keys := by
  obtain ⟨before, after, h, -⟩ := List.lookup_eq_some_iff.mp h
  simp [keys, h]

theorem find?_insert_self (table : AliasTable) (name : String) (shape : Shape) :
    (table.insert name shape).find? name = some shape := by
  simp [find?, insert]

theorem find?_insert (table : AliasTable) (name other : String) (shape : Shape) :
    (table.insert name shape).find? other =
      if other = name then some shape else table.find? other := by
  by_cases h : other = name
  · subst h
    simp [find?_insert_self]
  · have hother (entries : List (String × Shape)) :
        (entries.filter fun entry => entry.1 != name).lookup other = entries.lookup other := by
      induction entries with
      | nil => rfl
      | cons entry entries ih => grind
    simp [find?, insert, List.lookup_cons, beq_false_of_ne h, h, hother]

private theorem find?_foldl_insert (entries : List (String × Shape)) (table : AliasTable)
    (name : String) :
    (entries.foldl (fun table entry => table.insert entry.1 entry.2) table).find? name =
      (entries.reverse.lookup name).or (table.find? name) := by
  induction entries generalizing table with
  | nil => simp
  | cons entry entries ih =>
    rw [List.foldl_cons, ih, find?_insert, List.reverse_cons, List.lookup_append, Option.or_assoc,
      List.lookup_cons]
    by_cases h : name = entry.1 <;> simp [h, beq_false_of_ne]

/-- Of the entries for a name the last one counts. -/
theorem find?_ofList (entries : List (String × Shape)) (name : String) :
    (ofList entries).find? name = entries.reverse.lookup name := by
  rw [ofList, find?_foldl_insert]
  simp [find?, empty]

/-- How many names of the table a path has not visited. -/
def unvisited (table : AliasTable) (path : List String) : Nat :=
  table.keys.countP fun key => decide (key ∉ path)

theorem unvisited_cons_lt {table : AliasTable} {path : List String} {name : String}
    (known : name ∈ table.keys) (new : name ∉ path) :
    table.unvisited (name :: path) < table.unvisited path := by
  unfold unvisited
  generalize table.keys = keys at known
  induction keys with
  | nil => simp at known
  | cons key keys ih =>
    have le : keys.countP (fun key => decide (key ∉ name :: path)) ≤
        keys.countP fun key => decide (key ∉ path) :=
      List.countP_mono_left (by simp +contextual)
    rw [List.countP_cons, List.countP_cons]
    by_cases h : key = name
    · have hit : decide (key ∉ name :: path) = false := by simp [h]
      have miss : decide (key ∉ path) = true := by simp [h, new]
      rw [hit, miss]; simp only [Bool.false_eq_true, if_false, if_true]; omega
    · have same : decide (key ∉ name :: path) = decide (key ∉ path) := by simp [h]
      have := ih (by simpa [Ne.symm h] using known)
      rw [same]; omega

end AliasTable

end Unmarshal
