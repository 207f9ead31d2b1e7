import Mathlib.Data.List.Permutation
import Unmarshal.Binding
import Unmarshal.Proofs.Unfolding
import Unmarshal.Proofs.Words

/-!
# Fresh locals

Every local of a body is claimed before it is declared, so the names of the locals are what the
body adds to the names in use. Claims compose, and with them the bodies of a layout, of its
fields and of all parameters of a call.
-/
namespace Unmarshal

namespace Stmt

mutual

/-- The locals that a statement declares at any depth. The variable of a guard is not one. -/
def locals : Stmt → List String
  | .declare name _ | .define name _ => [name]
  | .assign _ _ => []
  | .branch none _ body | .branch (some (.define _ _)) _ body => allLocals body
  | .branch (some init) _ body => locals init ++ allLocals body
  | .loop counter _ body => counter :: allLocals body

def allLocals : List Stmt → List String
  | [] => []
  | s :: rest => locals s ++ allLocals rest

end

theorem allLocals_append (a b : List Stmt) : allLocals (a ++ b) = allLocals a ++ allLocals b := by
  induction a with
  | nil => rfl
  | cons s rest ih => simp [allLocals, ih]

@[simp] theorem locals_whenPresent (options : Options) (source : Expr) (body : List Stmt) :
    (options.whenPresent source body).locals = allLocals body := by
  simp [Options.whenPresent, locals]

end Stmt

namespace Names

/-- One state of the names becomes another by claiming the given ones. -/
structure Claims (before after : Names) (claimed : List String) : Prop where
  mem_used : ∀ x, x ∈ after.used ↔ x ∈ claimed ∨ x ∈ before.used
  nodup : claimed.Nodup
  fresh : ∀ x ∈ claimed, x ∉ before.used

namespace Claims

variable {first second third : Names} {claimed others : List String}

theorem refl (names : Names) : Claims names names [] :=
  ⟨by simp, List.nodup_nil, by simp⟩

theorem single (names : Names) (base : String) :
    Claims names (names.claim base).2 [(names.claim base).1] := by
  refine ⟨?_, by simp, ?_⟩
  · intro x
    rw [used_claim]
    simp
  · intro x hx
    rw [List.mem_singleton] at hx
    rw [hx]
    exact claim_not_mem names base

theorem trans (h : Claims first second claimed) (k : Claims second third others) :
    Claims first third (claimed ++ others) := by
  have hapart : ∀ x ∈ claimed, ∀ y ∈ others, x ≠ y := by
    rintro x hx _ hy rfl
    exact k.fresh x hy ((h.mem_used x).mpr (.inl hx))
  refine ⟨?_, List.nodup_append.mpr ⟨h.nodup, k.nodup, hapart⟩, ?_⟩
  · intro x
    rw [k.mem_used, h.mem_used, List.mem_append, or_left_comm, or_assoc]
  · intro x hx
    rcases List.mem_append.mp hx with hx | hx
    · exact h.fresh x hx
    · exact fun hused => k.fresh x hx ((h.mem_used x).mpr (.inr hused))

theorem perm (h : Claims first second claimed) (hp : claimed.Perm others) :
    Claims first second others := by
  refine ⟨?_, hp.nodup h.nodup, ?_⟩
  · intro x
    rw [h.mem_used, hp.mem_iff]
  · intro x hx
    exact h.fresh x (hp.mem_iff.mpr hx)

theorem claim_then {names after : Names} {base : String}
    (h : Claims (names.claim base).2 after claimed) :
    Claims names after ((names.claim base).1 :: claimed) :=
  (single names base).trans h

theorem mem_of_mem (h : Claims first second claimed) {x : String} (hx : x ∈ first.used) :
    x ∈ second.used :=
  (h.mem_used x).mpr (.inr hx)

end Claims

end Names

namespace Layout

variable (options : Options)

private theorem fillFields_claims {fields : List (Field Layout)}
    (ih : ∀ f ∈ fields, ∀ base source target names,
      Names.Claims names (f.type.fill options base source target names).2
        (Stmt.allLocals (f.type.fill options base source target names).1))
    (base : String) (source target : Expr) (names : Names) :
    Names.Claims names (fillFields options base source target fields names).2
      (Stmt.allLocals (fillFields options base source target fields names).1) := by
  induction fields generalizing names with
  | nil => exact .refl names
  | cons f fields ihFields =>
    obtain ⟨name, type⟩ := f
    have hFirst := ih ⟨name, type⟩ (by simp) (base ++ name) (source.property name)
      (.field target name) names
    have hOthers := ihFields (fun f hf => ih f (by simp [hf]))
      (type.fill options (base ++ name) (source.property name) (.field target name) names).2
    simp only [fillFields, Stmt.allLocals_append]
    exact hFirst.trans hOthers

theorem fill_claims (layout : Layout) (base : String) (source target : Expr) (names : Names) :
    Names.Claims names (layout.fill options base source target names).2
      (Stmt.allLocals (layout.fill options base source target names).1) := by
  induction layout using Layout.induction generalizing base source target names with
  | scalar declared type => exact .refl names
  | optional declared pointee ih =>
    simpa [fill, Stmt.allLocals, Stmt.locals] using
      ih (base ++ "Elt") source (.deref target) names
  | sequence declared elem extent ih =>
    cases extent with
    | fixed length =>
      have h := ih (base ++ "Elt") (source.element (names.claim (base ++ "Idx")).1)
        (.index target (.ident (names.claim (base ++ "Idx")).1)) (names.claim (base ++ "Idx")).2
      simpa [fill, Stmt.allLocals, Stmt.locals] using h.claim_then
    | dynamic =>
      let named := (names.claim (base ++ "Len")).2
      have h := ih (base ++ "Elt") (source.element (named.claim (base ++ "Idx")).1)
        (.index target (.ident (named.claim (base ++ "Idx")).1)) (named.claim (base ++ "Idx")).2
      simpa [fill, Stmt.allLocals, Stmt.locals] using h.claim_then.claim_then
  | record declared fields ih => exact fillFields_claims options ih base source target names

/-- Binding a value claims exactly the locals it declares. A slice is claimed before its length
and declared after it. -/
theorem bind_claims (layout : Layout) (base : String) (source : Expr) (names : Names) :
    Names.Claims names (layout.bind options base source names).2
      (Stmt.allLocals (layout.bind options base source names).1.code) := by
  let place := names.claim base
  have hFill := fill_claims options layout place.1 source (.ident place.1) place.2
  cases layout with
  | scalar declared type => exact .refl names
  | optional declared pointee =>
    simpa [bind, Stmt.allLocals, Stmt.locals] using hFill.claim_then
  | record declared fields =>
    simpa [bind, Stmt.allLocals, Stmt.locals] using hFill.claim_then
  | sequence declared elem extent =>
    cases extent with
    | fixed length => simpa [bind, Stmt.allLocals, Stmt.locals] using hFill.claim_then
    | dynamic =>
      let length := place.2.claim (place.1 ++ "Len")
      let counter := length.2.claim (place.1 ++ "Idx")
      have hElem := fill_claims options elem (place.1 ++ "Elt") (source.element counter.1)
        (.index (.ident place.1) (.ident counter.1)) counter.2
      have hAll : names.Claims (bind options base source (.sequence declared elem .dynamic) names).2
          (place.1 :: length.1 :: counter.1 :: _) :=
        hElem.claim_then.claim_then.claim_then
      simpa [bind, Stmt.allLocals, Stmt.locals] using hAll.perm (.swap _ _ _)

/-! The names of locals are built from the base, from the names of fields and from suffixes. -/

section

variable {options : Options}

private theorem fillFields_isName {fields : List (Field Layout)} {base : String}
    (ih : ∀ f ∈ fields, ∀ source target names, ∀ x ∈
      Stmt.allLocals (f.type.fill options (base ++ f.name) source target names).1,
      Text.isName x = true)
    (source target : Expr) (names : Names) :
    ∀ x ∈ Stmt.allLocals (fillFields options base source target fields names).1,
      Text.isName x = true := by
  induction fields generalizing names with
  | nil => simp [fillFields, Stmt.allLocals]
  | cons f fields ihFields =>
    obtain ⟨name, type⟩ := f
    simp only [fillFields, Stmt.allLocals_append]
    intro x hx
    rcases List.mem_append.mp hx with hx | hx
    · exact ih ⟨name, type⟩ (by simp) _ _ _ x hx
    · exact ihFields (fun f hf => ih f (by simp [hf])) _ x hx

/-- Under a name, with words for fields, filling a place declares names only. -/
theorem fill_isName {layout : Layout}
    (hfields : layout.EveryRecord fun names => ∀ n ∈ names, Text.isWord n = true) {base : String}
    (hbase : Text.isName base = true) (source target : Expr) (names : Names) :
    ∀ x ∈ Stmt.allLocals (layout.fill options base source target names).1,
      Text.isName x = true := by
  have suffixed {base : String} (hbase : Text.isName base = true) :
      Text.isName (base ++ "Elt") = true ∧ Text.isName (base ++ "Idx") = true ∧
        Text.isName (base ++ "Len") = true := by
    refine ⟨Text.isName_append hbase ?_, Text.isName_append hbase ?_,
      Text.isName_append hbase ?_⟩ <;> exact List.all_eq_true.mp (by decide)
  induction layout using Layout.induction generalizing base source target names with
  | scalar declared type => simp [fill, Stmt.allLocals, Stmt.locals]
  | optional declared pointee ih =>
    simpa [fill, Stmt.allLocals, Stmt.locals] using
      ih hfields (suffixed hbase).1 source (.deref target) names
  | sequence declared elem extent ih =>
    obtain ⟨hElt, hIdx, hLen⟩ := suffixed hbase
    cases extent with
    | fixed length =>
      simp only [fill, Stmt.allLocals, Stmt.locals, List.append_nil, List.mem_cons]
      rintro x (rfl | hx)
      · exact names.isName_claim hIdx
      · exact ih hfields hElt _ _ _ x hx
    | dynamic =>
      simp only [fill, Stmt.allLocals, Stmt.locals, List.append_nil, List.nil_append,
        List.cons_append, List.mem_cons]
      rintro x (rfl | rfl | hx)
      · exact names.isName_claim hLen
      · exact Names.isName_claim _ hIdx
      · exact ih hfields hElt _ _ _ x hx
  | record declared fields ih =>
    apply fillFields_isName
    intro f hf source target names
    have hname := hfields.1 f.name (List.mem_map_of_mem hf)
    exact ih f hf (everyRecordOfFields_iff.mp hfields.2 f hf)
      (Text.isName_append hbase (Text.continues_of_isWord hname)) source target names

theorem bind_isName {layout : Layout}
    (hfields : layout.EveryRecord fun names => ∀ n ∈ names, Text.isWord n = true) {base : String}
    (hbase : Text.isName base = true) (source : Expr) (names : Names) :
    ∀ x ∈ Stmt.allLocals (layout.bind options base source names).1.code,
      Text.isName x = true := by
  have hplace := names.isName_claim hbase
  have hFill : ∀ x ∈ Stmt.allLocals (layout.fill options (names.claim base).1 source
      (.ident (names.claim base).1) (names.claim base).2).1, Text.isName x = true :=
    fill_isName hfields hplace _ _ _
  cases layout with
  | scalar declared type => simp [bind, Stmt.allLocals]
  | optional declared pointee => simpa [bind, Stmt.allLocals, Stmt.locals, hplace] using hFill
  | record declared fields => simpa [bind, Stmt.allLocals, Stmt.locals, hplace] using hFill
  | sequence declared elem extent =>
    cases extent with
    | fixed length => simpa [bind, Stmt.allLocals, Stmt.locals, hplace] using hFill
    | dynamic =>
      -- the locals are those of a slice that is filled in place, and the place itself
      simp only [fill, bind, Stmt.allLocals, Stmt.locals, List.append_nil, List.nil_append,
        List.cons_append, List.forall_mem_cons] at hFill ⊢
      exact ⟨hFill.1, hplace, hFill.2⟩

end

end Layout

namespace Arguments

/-- What is in use after every parameter has been bound. -/
def namesAfter (options : Options) : Nat → List (Field Layout) → Names → Names
  | _, [], names => names
  | index, ⟨base, layout⟩ :: layouts, names =>
    namesAfter options (index + 1) layouts
      (layout.bind options base (.index (.ident options.args) (.int index)) names).2

theorem emit_claims (options : Options) (index : Nat) (layouts : List (Field Layout))
    (names : Names) :
    names.Claims (namesAfter options index layouts names)
      (Stmt.allLocals (emit options index layouts names).code) := by
  induction layouts generalizing index names with
  | nil => exact .refl names
  | cons f layouts ih =>
    obtain ⟨base, layout⟩ := f
    simp only [emit, namesAfter, Stmt.allLocals_append]
    exact (layout.bind_claims options base _ names).trans (ih _ _)

/-- With words or blanks for parameters, and words for fields, only names are declared. -/
theorem emit_isName {options : Options} {index : Nat} {layouts : List (Field Layout)}
    (hlayouts : ∀ f ∈ layouts, Text.isName f.name = true ∧
      f.type.EveryRecord fun names => ∀ n ∈ names, Text.isWord n = true) (names : Names) :
    ∀ x ∈ Stmt.allLocals (emit options index layouts names).code, Text.isName x = true := by
  induction layouts generalizing index names with
  | nil => simp [emit, Stmt.allLocals]
  | cons f layouts ih =>
    obtain ⟨base, layout⟩ := f
    obtain ⟨hbase, hfields⟩ := hlayouts ⟨base, layout⟩ (by simp)
    simp only [emit, Stmt.allLocals_append]
    intro x hx
    rcases List.mem_append.mp hx with hx | hx
    · exact Layout.bind_isName hfields hbase _ names x hx
    · exact ih (fun f hf => hlayouts f (by simp [hf])) _ x hx

end Arguments

theorem Param.isName_localName {param : Param}
    (h : param.name = "" ∨ param.name = "_" ∨ Text.isWord param.name = true) (index : Nat) :
    Text.isName (param.localName index) = true := by
  unfold localName
  split
  · exact Text.isName_append (by decide) (Text.continues_toString index)
  · next hblank =>
    rw [not_or] at hblank
    obtain ⟨hempty, hlone⟩ := hblank
    exact Text.isName_eq_true_iff.mpr ⟨(h.resolve_left hempty).resolve_left hlone, hlone⟩

namespace AliasTable

variable {table : AliasTable}

/-- Every parameter has a layout, under its base name, that unfolds its shape. -/
theorem layoutParams_ok {index : Nat} {params : List Param} {layouts : List (Field Layout)}
    (h : table.layoutParams index params = .ok layouts) :
    layouts.length = params.length ∧
      ∀ (i : Nat) f param, layouts[i]? = some f → params[i]? = some param →
        f.name = param.localName (index + i) ∧ table.Unfolds param.shape f.type := by
  induction params generalizing index layouts with
  | nil =>
    cases h
    simp
  | cons param params ih =>
    simp only [layoutParams] at h
    split at h
    · cases h
    · next layout hl =>
      split at h
      · cases h
      · next rest hr =>
        cases h
        obtain ⟨hlength, hrest⟩ := ih hr
        refine ⟨by simp [hlength], ?_⟩
        intro i f other hf hother
        cases i with
        | zero =>
          obtain rfl : f = ⟨param.localName index, layout⟩ := by simpa using hf.symm
          obtain rfl : other = param := by simpa using hother.symm
          exact ⟨rfl, unfolds_of_layout hl⟩
        | succ i =>
          rw [show index + (i + 1) = index + 1 + i by omega]
          exact hrest i f other hf hother

theorem mem_layoutParams {index : Nat} {params : List Param} {layouts : List (Field Layout)}
    (h : table.layoutParams index params = .ok layouts) :
    ∀ f ∈ layouts, ∃ param ∈ params, ∃ i, f.name = param.localName i ∧
      table.Unfolds param.shape f.type := by
  obtain ⟨hlength, hlayouts⟩ := layoutParams_ok h
  intro f hf
  obtain ⟨i, hi, rfl⟩ := List.mem_iff_getElem.mp hf
  have hparam := List.getElem?_eq_getElem (hlength ▸ hi)
  obtain ⟨hname, hunfold⟩ := hlayouts i _ _ (List.getElem?_eq_getElem hi) hparam
  exact ⟨_, List.mem_of_getElem? hparam, index + i, hname, hunfold⟩

/-- The layout of a parameter unfolds the type that it is declared with. -/
theorem unfolds_layoutParams {index : Nat} {params : List Param} {layouts : List (Field Layout)}
    (h : table.layoutParams index params = .ok layouts) :
    ∀ f ∈ layouts, table.Unfolds f.type.declared f.type := by
  intro f hf
  obtain ⟨param, -, i, -, hunfold⟩ := mem_layoutParams h f hf
  rwa [hunfold.declared_eq]

theorem resolveArguments_eq_ok_iff {options : Options} {params : List Param}
    {arguments : Arguments} :
    table.resolveArguments options params = .ok arguments ↔
      ∃ layouts, table.layoutParams 0 params = .ok layouts ∧
        arguments = .emit options 0 layouts (.reserved options) := by
  unfold resolveArguments
  cases table.layoutParams 0 params with
  | error e => simp [Except.map]
  | ok layouts => simp [Except.map, eq_comm]

theorem bind_eq_ok_iff {options : Options} {signature : Signature} {binding : Binding} :
    table.bind options signature = .ok binding ↔
      ∃ layouts, table.layoutParams 0 signature.params = .ok layouts ∧
        binding = ⟨signature.name, .emit options 0 layouts
          ((Names.reserved options).reserve signature.name)⟩ := by
  unfold bind
  cases table.layoutParams 0 signature.params with
  | error e => simp [Except.map]
  | ok layouts => simp [Except.map, eq_comm]

/-- The locals of a bound function differ from one another, from the names that the code refers to
and from the function; and they are names if the parameters and fields are words or blank. -/
theorem bind_locals_fresh {options : Options} {signature : Signature} {binding : Binding}
    (h : table.bind options signature = .ok binding) :
    (Stmt.allLocals binding.arguments.code).Nodup ∧
    (∀ x ∈ Stmt.allLocals binding.arguments.code, x ≠ options.args ∧ x ≠ options.runtime ∧
      x ≠ options.kindVar ∧ x ≠ signature.name) ∧
    ((∀ param ∈ signature.params,
        param.name = "" ∨ param.name = "_" ∨ Text.isWord param.name = true) →
      (∀ param ∈ signature.params,
        param.shape.EveryRecord fun names => ∀ n ∈ names, Text.isWord n = true) →
      (table.EveryRecord fun names => ∀ n ∈ names, Text.isWord n = true) →
      ∀ x ∈ Stmt.allLocals binding.arguments.code, Text.isWord x = true ∧ x ≠ "_") := by
  obtain ⟨layouts, hlayouts, rfl⟩ := bind_eq_ok_iff.mp h
  have hclaims := Arguments.emit_claims options 0 layouts
    ((Names.reserved options).reserve signature.name)
  refine ⟨hclaims.nodup, ?_, ?_⟩
  · intro x hx
    have hfree := hclaims.fresh x hx
    simp only [Names.reserve, Names.reserved, List.mem_cons, List.not_mem_nil, or_false,
      not_or] at hfree
    obtain ⟨hname, hkind, hruntime, hargs⟩ := hfree
    exact ⟨hargs, hruntime, hkind, hname⟩
  · intro hparams hshapes htable x hx
    refine Text.isName_eq_true_iff.mp (Arguments.emit_isName ?_ _ x hx)
    intro f hf
    obtain ⟨param, hmem, i, hname, hunfold⟩ := mem_layoutParams hlayouts f hf
    rw [hname]
    exact ⟨Param.isName_localName (hparams param hmem) i,
      hunfold.everyRecord htable (hshapes param hmem)⟩

/-- A record of whole numbers under a name. -/
def rows : AliasTable :=
  ⟨[("Row", .record [⟨"Len", .sequence (.named "int") .dynamic⟩])], by decide⟩

/-- A signature whose locals would meet: the field of `a`, its length and the second parameter
start from the same names. -/
def drawRows : Signature :=
  ⟨"draw", [⟨"a", .named "Row"⟩, ⟨"aLen", .sequence (.named "int") .dynamic⟩,
    ⟨"_", .optional (.named "Row")⟩]⟩

def drawLayouts : List (Field Layout) :=
  let ints : Layout :=
    .sequence (.sequence (.named "int") .dynamic) (.scalar (.named "int") .int) .dynamic
  let row : Layout := .record (.named "Row") [⟨"Len", ints⟩]
  [⟨"a", row⟩, ⟨"aLen", ints⟩, ⟨"arg2", .optional (.optional (.named "Row")) row⟩]

theorem layoutParams_drawRows : rows.layoutParams 0 drawRows.params = .ok drawLayouts := by cbv

theorem resolveArguments_drawRows : rows.resolveArguments {} drawRows.params =
    .ok (.emit {} 0 drawLayouts (.reserved {})) :=
  resolveArguments_eq_ok_iff.mpr ⟨drawLayouts, layoutParams_drawRows, rfl⟩

theorem everyRecord_rows {P : List String → Prop} (h : P ["Len"]) : rows.EveryRecord P := by
  refine everyRecord_of_mem ?_
  simpa [rows, Shape.EveryRecord, Shape.EveryRecordOfFields] using h

theorem everyRecord_drawRows {P : List String → Prop} :
    ∀ param ∈ drawRows.params, param.shape.EveryRecord P := by
  simp [drawRows, Shape.EveryRecord]

theorem bind_locals_fresh_drawRows : ∃ binding, rows.bind {} drawRows = .ok binding ∧
    Stmt.allLocals binding.arguments.code = ["a", "aLenLen", "aLenIdx", "aLenLen1", "aLen",
      "aLenIdx1", "arg2", "arg2EltLenLen", "arg2EltLenIdx"] ∧
    (Stmt.allLocals binding.arguments.code).Nodup ∧
    (∀ x ∈ Stmt.allLocals binding.arguments.code, x ≠ "args" ∧ x ≠ "js" ∧ x ≠ "jsType" ∧
      x ≠ "draw") ∧
    ∀ x ∈ Stmt.allLocals binding.arguments.code, Text.isWord x = true ∧ x ≠ "_" := by
  have hbind : rows.bind {} drawRows = .ok _ :=
    bind_eq_ok_iff.mpr ⟨drawLayouts, layoutParams_drawRows, rfl⟩
  obtain ⟨hdistinct, hapart, hwords⟩ := bind_locals_fresh hbind
  exact ⟨_, hbind, by cbv, hdistinct, hapart,
    hwords (by decide) everyRecord_drawRows (everyRecord_rows (by decide))⟩

end AliasTable

end Unmarshal
