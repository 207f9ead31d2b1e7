import Mathlib.Data.List.Nodup
import Mathlib.Data.Option.Basic
import Unmarshal.Toml.Document

/-!
# Distinct keys

A key of a TOML document is defined once, so in the tree that a document stands for no table has
two entries with the same key.
-/
namespace Unmarshal

/-- The keys of every table in a tree are distinct. -/
inductive Json.Distinct : Json → Prop
  | null : Distinct .null
  | bool (value : Bool) : Distinct (.bool value)
  | int (value : Int) : Distinct (.int value)
  | real (digits : String) : Distinct (.real digits)
  | str (value : String) : Distinct (.str value)
  | arr {items : List Json} (each : ∀ item ∈ items, Distinct item) : Distinct (.arr items)
  | obj {entries : List (String × Json)} (keys : (entries.map Prod.fst).Nodup)
      (each : ∀ entry ∈ entries, Distinct entry.2) : Distinct (.obj entries)

namespace Toml

/-- The keys of a table, and of every table in it, are distinct. -/
inductive Node.Distinct : Node → Prop
  | value {value : Json} (each : value.Distinct) : Distinct (.value value)
  | table {making : Making} {entries : Entries} (keys : (entries.map Prod.fst).Nodup)
      (each : ∀ entry ∈ entries, Distinct entry.2) : Distinct (.table making entries)
  | tables {newest : Entries} {earlier : List Entries}
      (keys : ∀ entries ∈ newest :: earlier, (entries.map Prod.fst).Nodup)
      (each : ∀ entries ∈ newest :: earlier, ∀ entry ∈ entries, Distinct entry.2) :
      Distinct (.tables newest earlier)

namespace Entries

/-- As for a node, for the entries of a table. -/
structure Distinct (entries : Entries) : Prop where
  keys : (entries.map Prod.fst).Nodup
  each : ∀ entry ∈ entries, entry.2.Distinct

theorem distinct_nil : Distinct [] := ⟨List.nodup_nil, by simp⟩

end Entries

theorem Node.distinct_table_iff {making : Making} {entries : Entries} :
    (Node.table making entries).Distinct ↔ entries.Distinct :=
  ⟨fun | .table keys each => ⟨keys, each⟩, fun h => .table h.keys h.each⟩

theorem Node.distinct_tables_iff {newest : Entries} {earlier : List Entries} :
    (Node.tables newest earlier).Distinct ↔
      newest.Distinct ∧ ∀ entries ∈ earlier, Entries.Distinct entries := by
  rw [← List.forall_mem_cons]
  exact ⟨fun | .tables keys each => fun entries h => ⟨keys entries h, each entries h⟩,
    fun h => .tables (fun entries he => (h entries he).keys) fun entries he => (h entries he).each⟩

/-- A table has distinct keys once its entries have them. -/
theorem Node.Distinct.of_map_table {making : Making} {inner : Option Entries} {made : Node}
    (hmade : inner.map (Node.table making) = some made)
    (hinner : ∀ entries, inner = some entries → entries.Distinct) : made.Distinct := by
  obtain ⟨entries, hentries, rfl⟩ := Option.map_eq_some_iff.mp hmade
  exact distinct_table_iff.mpr (hinner entries hentries)

theorem Node.Distinct.of_map_tables {earlier : List Entries} {newest : Option Entries}
    {made : Node} (hmade : newest.map (fun newest => Node.tables newest earlier) = some made)
    (hearlier : ∀ entries ∈ earlier, Entries.Distinct entries)
    (hnewest : ∀ entries, newest = some entries → entries.Distinct) : made.Distinct := by
  obtain ⟨entries, hentries, rfl⟩ := Option.map_eq_some_iff.mp hmade
  exact distinct_tables_iff.mpr ⟨hnewest entries hentries, hearlier⟩

theorem entriesToJson_eq_map (entries : Entries) :
    entriesToJson entries = entries.map fun entry => (entry.1, entry.2.toJson) := by
  induction entries with
  | nil => rfl
  | cons entry rest ih => rw [entriesToJson, ih, List.map_cons]

theorem tablesToJson_eq_map (tables : List Entries) :
    tablesToJson tables = tables.map fun entries => .obj (entriesToJson entries) := by
  induction tables with
  | nil => rfl
  | cons entries rest ih => rw [tablesToJson, ih, List.map_cons]

theorem distinct_entriesToJson {entries : Entries} (keys : (entries.map Prod.fst).Nodup)
    (each : ∀ entry ∈ entries, entry.2.toJson.Distinct) :
    (Json.obj (entriesToJson entries)).Distinct := by
  rw [entriesToJson_eq_map]
  refine .obj ?_ ?_
  · rwa [List.map_map]
  · exact List.forall_mem_map.mpr each

theorem Node.Distinct.toJson {node : Node} (h : node.Distinct) : node.toJson.Distinct := by
  induction h with
  | value each => exact each
  | table keys _ ih => exact distinct_entriesToJson keys ih
  | @tables newest earlier keys _ ih =>
    have hall : ∀ entries ∈ newest :: earlier, (Json.obj (entriesToJson entries)).Distinct :=
      fun entries hmem => distinct_entriesToJson (keys entries hmem) (ih entries hmem)
    obtain ⟨hnewest, hearlier⟩ := List.forall_mem_cons.mp hall
    rw [Node.toJson, tablesToJson_eq_map]
    refine .arr (List.forall_mem_append.mpr ⟨?_, by simpa using hnewest⟩)
    simpa using hearlier

namespace Entries

theorem Distinct.toJson {entries : Entries} (h : entries.Distinct) :
    (Json.obj (entriesToJson entries)).Distinct :=
  distinct_entriesToJson h.keys fun entry hmem => (h.each entry hmem).toJson

theorem alter_keys {key : String} {change : Option Node → Option Node} {entries new : Entries}
    (h : entries.alter key change = some new) :
    new.map Prod.fst =
      if key ∈ entries.map Prod.fst then entries.map Prod.fst
      else entries.map Prod.fst ++ [key] := by
  induction entries generalizing new with
  | nil =>
    obtain ⟨node, -, rfl⟩ := Option.map_eq_some_iff.mp h
    rfl
  | cons entry rest ih =>
    obtain ⟨k, node⟩ := entry
    rw [alter] at h
    split at h
    next heq =>
      obtain ⟨node, -, rfl⟩ := Option.map_eq_some_iff.mp h
      simp [heq]
    next hne =>
      obtain ⟨rest', hrest, rfl⟩ := Option.map_eq_some_iff.mp h
      have hkey : key ≠ k := fun heq => hne heq.symm
      simp only [List.map_cons, ih hrest, List.mem_cons, hkey, false_or, apply_ite (k :: ·),
        List.cons_append]

/-- An entry of an altered table is an entry it had, or holds what the change made. -/
theorem mem_alter {key : String} {change : Option Node → Option Node} {entries new : Entries}
    (h : entries.alter key change = some new) {entry : String × Node} (hmem : entry ∈ new) :
    entry ∈ entries ∨ ∃ old, (∀ node ∈ old, (key, node) ∈ entries) ∧ change old = some entry.2 := by
  induction entries generalizing new with
  | nil =>
    obtain ⟨node, hchange, rfl⟩ := Option.map_eq_some_iff.mp h
    rw [List.mem_singleton] at hmem
    exact .inr ⟨none, by simp, hmem ▸ hchange⟩
  | cons first rest ih =>
    obtain ⟨k, node⟩ := first
    rw [alter] at h
    split at h
    next heq =>
      obtain ⟨made, hchange, rfl⟩ := Option.map_eq_some_iff.mp h
      rcases List.mem_cons.mp hmem with rfl | hmem
      · exact .inr ⟨some node, by simp [heq], hchange⟩
      · exact .inl (.tail _ hmem)
    next hne =>
      obtain ⟨rest', hrest, rfl⟩ := Option.map_eq_some_iff.mp h
      rcases List.mem_cons.mp hmem with rfl | hmem
      · exact .inl (.head _)
      · rcases ih hrest hmem with hmem | ⟨old, hold, hchange⟩
        · exact .inl (.tail _ hmem)
        · exact .inr ⟨old, fun node hnode => .tail _ (hold node hnode), hchange⟩

theorem Distinct.alter {key : String} {change : Option Node → Option Node} {entries new : Entries}
    (h : entries.Distinct) (hnew : entries.alter key change = some new)
    (hchange : ∀ old made, (∀ node ∈ old, node.Distinct) → change old = some made →
      made.Distinct) : new.Distinct := by
  refine ⟨?_, fun entry hmem => ?_⟩
  · rw [alter_keys hnew]
    split
    · exact h.keys
    next hkey => exact h.keys.append (List.nodup_singleton key) (by simpa using hkey)
  · rcases mem_alter hnew hmem with hmem | ⟨old, hold, hmade⟩
    · exact h.each entry hmem
    · exact hchange old entry.2 (fun node hnode => h.each _ (hold node hnode)) hmade

theorem Distinct.add {value : Json} (hvalue : value.Distinct) {last : String} {path : List String}
    {landing : Bool} {entries new : Entries} (h : entries.Distinct)
    (hnew : entries.add landing last value path = some new) : new.Distinct := by
  induction path generalizing landing entries new with
  | nil =>
    rw [Entries.add] at hnew
    split at hnew
    · refine h.alter hnew fun old made _ hmade => ?_
      cases old with
      | none => cases hmade; exact .value hvalue
      | some node => cases hmade
    · cases hnew
  | cons key path ih =>
    rw [Entries.add] at hnew
    refine h.alter hnew fun old made hold hmade => ?_
    split at hmade
    · exact .of_map_table hmade fun _ => ih distinct_nil
    · exact .of_map_table hmade fun _ => ih (Node.distinct_table_iff.mp (hold _ rfl))
    · exact .of_map_table hmade fun _ => ih (Node.distinct_table_iff.mp (hold _ rfl))
    · obtain ⟨hnewest, hearlier⟩ := Node.distinct_tables_iff.mp (hold _ rfl)
      exact .of_map_tables hmade hearlier fun _ => ih hnewest
    · cases hmade
    · cases hmade

theorem Distinct.descend {change : Entries → Option Entries}
    (hchange : ∀ entries new : Entries, entries.Distinct → change entries = some new →
      new.Distinct) {path : List String} {entries new : Entries} (h : entries.Distinct)
    (hnew : entries.descend change path = some new) : new.Distinct := by
  induction path generalizing entries new with
  | nil => exact hchange entries new h hnew
  | cons key path ih =>
    rw [Entries.descend] at hnew
    refine h.alter hnew fun old made hold hmade => ?_
    split at hmade
    · exact .of_map_table hmade fun _ => ih distinct_nil
    · exact .of_map_table hmade fun _ => ih (Node.distinct_table_iff.mp (hold _ rfl))
    · obtain ⟨hnewest, hearlier⟩ := Node.distinct_tables_iff.mp (hold _ rfl)
      exact .of_map_tables hmade hearlier fun _ => ih hnewest
    · cases hmade

theorem Distinct.openTable {key : Key} {entries new : Entries} (h : entries.Distinct)
    (hnew : entries.openTable key = some new) : new.Distinct := by
  refine h.descend (fun table opened htable hopened => ?_) hnew
  refine htable.alter hopened fun old made hold hmade => ?_
  split at hmade
  · cases hmade
    exact Node.distinct_table_iff.mpr distinct_nil
  · cases hmade
    exact Node.distinct_table_iff.mpr (Node.distinct_table_iff.mp (hold _ rfl))
  · cases hmade

theorem Distinct.appendTable {key : Key} {entries new : Entries} (h : entries.Distinct)
    (hnew : entries.appendTable key = some new) : new.Distinct := by
  refine h.descend (fun table grown htable hgrown => ?_) hnew
  refine htable.alter hgrown fun old made hold hmade => ?_
  split at hmade
  · cases hmade
    exact Node.distinct_tables_iff.mpr ⟨distinct_nil, by simp⟩
  · cases hmade
    obtain ⟨hnewest, hearlier⟩ := Node.distinct_tables_iff.mp (hold _ rfl)
    exact Node.distinct_tables_iff.mpr
      ⟨distinct_nil, List.forall_mem_cons.mpr ⟨hnewest, hearlier⟩⟩
  · cases hmade

theorem Distinct.addAll {pairs : List (Key × Json)} (hpairs : ∀ pair ∈ pairs, pair.2.Distinct)
    {entries new : Entries} (h : entries.Distinct) (hnew : addAll pairs entries = some new) :
    new.Distinct := by
  induction pairs generalizing entries with
  | nil => cases hnew; exact h
  | cons pair rest ih =>
    obtain ⟨hpair, hrest⟩ := List.forall_mem_cons.mp hpairs
    obtain ⟨grown, hgrown, hnew⟩ := Option.bind_eq_some_iff.mp hnew
    exact ih hrest (h.add hpair hgrown) hnew

end Entries

namespace Scan

variable {α β : Type} {P : α → Prop} {Q : β → Prop}

/-- All that a scanner reads has a property. -/
def Yields (P : α → Prop) (item : Scan α) : Prop :=
  ∀ cs a rest, item cs = some (a, rest) → P a

theorem Yields.failure : Yields P (failure : Scan α) := nofun

theorem Yields.pure {a : α} (h : P a) : Yields P (pure a : Scan α) := by
  intro cs b rest hscan
  cases hscan
  exact h

theorem Yields.bind {item : Scan α} {next : α → Scan β} (hitem : Yields P item)
    (hnext : ∀ a, P a → Yields Q (next a)) : Yields Q (item >>= next) := by
  intro cs b rest hscan
  obtain ⟨⟨a, left⟩, ha, hb⟩ := Option.bind_eq_some_iff.mp hscan
  exact hnext a (hitem _ _ _ ha) _ _ _ hb

/-- What comes first may yield anything. -/
theorem Yields.after {item : Scan α} {next : α → Scan β} (hnext : ∀ a, Yields Q (next a)) :
    Yields Q (item >>= next) :=
  Yields.bind (P := fun _ => True) (fun _ _ _ _ => trivial) fun a _ => hnext a

theorem Yields.map {f : α → β} {item : Scan α} (hitem : Yields P item)
    (hf : ∀ a, P a → Q (f a)) : Yields Q (f <$> item) := by
  rw [← bind_pure_comp]
  exact hitem.bind fun a ha => .pure (hf a ha)

theorem Yields.orElse {first second : Scan α} (hfirst : Yields P first)
    (hsecond : Yields P second) : Yields P (first <|> second) := by
  intro cs a rest hscan
  rcases (Option.orElse_eq_some _ _ _).mp hscan with hscan | ⟨-, hscan⟩
  · exact hfirst cs a rest hscan
  · exact hsecond cs a rest hscan

theorem Yields.maybe {item : Scan α} (hitem : Yields P item) :
    Yields (fun read => ∀ a ∈ read, P a) (maybe item) := by
  refine .orElse (hitem.map fun a ha => ?_) (.pure ?_)
  · simpa using ha
  · simp

theorem Yields.many {item : Scan α} (hitem : Yields P item) :
    Yields (fun as => ∀ a ∈ as, P a) (many item) := by
  intro cs
  fun_induction Scan.many item cs with
  | case1 cs hnone =>
    rintro as rest hscan
    cases hscan
    simp
  | case2 cs a left hread _ ih =>
    rintro as rest hscan
    obtain ⟨⟨others, rest'⟩, hothers, heq⟩ := Option.map_eq_some_iff.mp hscan
    cases heq
    exact List.forall_mem_cons.mpr ⟨hitem _ _ _ hread, ih _ _ hothers⟩
  | case3 cs a left hread _ =>
    rintro as rest hscan
    cases hscan
    exact List.forall_mem_singleton.mpr (hitem _ _ _ hread)

theorem Yields.separated {item : Scan α} (hitem : Yields P item) (separator : Scan Unit) :
    Yields (fun as => ∀ a ∈ as, P a) (separated item separator) := by
  have hother : Yields P (separator *> item) := by
    rw [seqRight_eq_bind]
    exact .after fun _ => hitem
  exact hitem.bind fun first hfirst => hother.many.bind fun others hothers =>
    .pure (List.forall_mem_cons.mpr ⟨hfirst, hothers⟩)

end Scan

section Document

open Scan

variable {scan : Scan Json}

theorem yields_array (h : Yields Json.Distinct scan) : Yields Json.Distinct (array scan) := by
  have hitem : Yields Json.Distinct (do gap; let v ← scan; gap; pure v) :=
    .after fun _ => h.bind fun v hv => .after fun _ => .pure hv
  refine .after fun _ => (Yields.maybe ((hitem.separated _).bind fun _ hitems =>
    .after fun _ => .pure hitems)).bind fun items hitems =>
      .after fun _ => .after fun _ => .pure (.arr ?_)
  cases items with
  | none => simp
  | some items => exact hitems items rfl

theorem yields_pair (h : Yields Json.Distinct scan) :
    Yields (fun pair : Key × Json => pair.2.Distinct) (pair scan) :=
  .after fun _ => .after fun _ => .after fun _ => h.bind fun _ hv => .after fun _ => .pure hv

theorem yields_inlineTable (h : Yields Json.Distinct scan) :
    Yields Json.Distinct (inlineTable scan) := by
  refine .after fun _ => ((yields_pair h).separated _).maybe.bind fun pairs hpairs =>
    .after fun _ => .after fun _ => ?_
  have hall : ∀ pair ∈ pairs.getD [], pair.2.Distinct := by
    cases pairs with
    | none => simp
    | some pairs => exact hpairs pairs rfl
  split
  next entries hadd => exact .pure (Entries.distinct_nil.addAll hall hadd).toJson
  next => exact .failure

theorem yields_scalar : Yields Json.Distinct value.scalar := by
  have hstring : Yields Json.Distinct (Json.str <$> string) :=
    Yields.map (P := fun _ => True) (fun _ _ _ _ => trivial) fun s _ => .str s
  have hdateTime : Yields Json.Distinct dateTime :=
    .after fun _ => .pure (.obj (by simp) (by simp [Json.Distinct.str]))
  have hfloat : Yields Json.Distinct float :=
    .after fun _ => .after fun _ => .pure (.real _)
  have hinteger : Yields Json.Distinct integer :=
    .after fun _ => .after fun _ => .pure (.int _)
  have hboolean : Yields Json.Distinct boolean :=
    .orElse (.after fun _ => .pure (.bool _)) (.after fun _ => .pure (.bool _))
  exact hstring.orElse (hdateTime.orElse (hfloat.orElse (hinteger.orElse hboolean)))

theorem yields_value (depth : Nat) : Yields Json.Distinct (value depth) := by
  induction depth with
  | zero => exact yields_scalar
  | succ depth ih => exact (yields_array ih).orElse ((yields_inlineTable ih).orElse yields_scalar)

/-- The value of a line that is a pair has distinct keys. -/
def Line.Distinct : Line → Prop
  | .pair _ value => value.Distinct
  | .nothing | .table _ | .tableItem _ => True

theorem yields_line : Yields Line.Distinct line := by
  have hended {item : Scan Line} (h : Yields Line.Distinct item) :
      Yields Line.Distinct (do let a ← item; spaces; let _ ← maybe comment; lineEnd; pure a) :=
    h.bind fun _ ha => .after fun _ => .after fun _ => .after fun _ => .pure ha
  have hempty : Yields Line.Distinct (do newline; pure .nothing) :=
    .after fun _ => .pure trivial
  have hremark : Yields Line.Distinct (do comment; lineEnd; pure .nothing) :=
    .after fun _ => .after fun _ => .pure trivial
  have htableItem : Yields Line.Distinct (do
      chars ['[', '[']; let k ← key; chars [']', ']']; pure (.tableItem k)) :=
    .after fun _ => .after fun _ => .after fun _ => .pure trivial
  have htable : Yields Line.Distinct (do char '['; let k ← key; char ']'; pure (.table k)) :=
    .after fun _ => .after fun _ => .after fun _ => .pure trivial
  have hassignment : Yields Line.Distinct (do
      let p ← pair (value (depthLimit - 1)); pure (.pair p.1 p.2)) :=
    (yields_pair (yields_value _)).bind fun _ hp => .pure hp
  exact .after fun _ => hempty.orElse (hremark.orElse ((hended htableItem).orElse
    ((hended htable).orElse (hended hassignment))))

theorem yields_document : Yields (fun lines => ∀ line ∈ lines, Line.Distinct line) document :=
  .after fun _ => yields_line.many.bind fun _ hlines =>
    .after fun _ => .after fun _ => .pure hlines

theorem Entries.Distinct.build {lines : List Line} (hlines : ∀ line ∈ lines, line.Distinct)
    {current : List String} {root new : Entries} (h : root.Distinct)
    (hnew : Toml.build current lines root = some new) : new.Distinct := by
  induction lines generalizing current root with
  | nil => cases hnew; exact h
  | cons line rest ih =>
    obtain ⟨hline, hrest⟩ := List.forall_mem_cons.mp hlines
    cases line with
    | nothing => exact ih hrest h hnew
    | pair key value =>
      obtain ⟨grown, hgrown, hnew⟩ := Option.bind_eq_some_iff.mp hnew
      exact ih hrest (h.descend (fun _ _ htable hadd => htable.add hline hadd) hgrown) hnew
    | table key =>
      obtain ⟨grown, hgrown, hnew⟩ := Option.bind_eq_some_iff.mp hnew
      exact ih hrest (h.openTable hgrown) hnew
    | tableItem key =>
      obtain ⟨grown, hgrown, hnew⟩ := Option.bind_eq_some_iff.mp hnew
      exact ih hrest (h.appendTable hgrown) hnew

/-- No table of a document has a key twice. -/
theorem distinct_of_read {text : String} {tree : Json} (h : read text = some tree) :
    tree.Distinct := by
  obtain ⟨⟨lines, left⟩, hlines, h⟩ := Option.bind_eq_some_iff.mp h
  obtain ⟨root, hroot, h⟩ := Option.bind_eq_some_iff.mp h
  cases h
  exact (Entries.distinct_nil.build (yields_document _ _ _ hlines) hroot).toJson

end Document

end Toml

end Unmarshal
