import Unmarshal.Binding
import Unmarshal.Text.CharClass

/-!
# Blocks of printed code

The text of a statement list as lines. A statement takes one line, or is a block: a header, the
lines of its body one tab further in, and a closing brace. No line is blank, and a newline stands
only between lines, since a string literal escapes its own.
-/
namespace Unmarshal

namespace Text

/-- The lines of a text. The empty text has none. -/
def lines (text : String) : List String :=
  if text = "" then [] else (text.split '\n').toList.map String.Slice.copy

/-- A text without a line end. -/
def OneLine (text : String) : Prop := '\n' ∉ text.toList

/-- A text that can be a line and is not blank. -/
def IsLine (text : String) : Prop := OneLine text ∧ ∃ c ∈ text.toList, isBlank c = false

theorem oneLine_append {first second : String} :
    OneLine (first ++ second) ↔ OneLine first ∧ OneLine second := by
  simp [OneLine, not_or]

theorem oneLine_intercalate {separator : String} {texts : List String}
    (hseparator : OneLine separator) (h : ∀ text ∈ texts, OneLine text) :
    OneLine (separator.intercalate texts) := by
  induction texts with
  | nil => simp [OneLine]
  | cons text texts ih =>
    obtain ⟨htext, htexts⟩ := List.forall_mem_cons.mp h
    cases texts with
    | nil => simpa using htext
    | cons other texts =>
      rw [String.intercalate_cons_cons]
      exact oneLine_append.mpr ⟨oneLine_append.mpr ⟨htext, hseparator⟩, ih htexts⟩

theorem oneLine_toString (n : Nat) : OneLine (toString n) := by
  rw [OneLine, Nat.toString_eq_repr, Nat.toList_repr]
  intro h
  have hdigit := Nat.isDigit_of_mem_toDigits (by decide) (by decide) h
  cases hdigit

theorem IsLine.ne_empty {text : String} (h : IsLine text) : text ≠ "" := by
  rintro rfl
  obtain ⟨-, c, hc, -⟩ := h
  simp at hc

/-- Lines that are put together are the lines of what they make. -/
theorem lines_intercalate {texts : List String} (h : ∀ text ∈ texts, IsLine text) :
    lines ("\n".intercalate texts) = texts := by
  cases texts with
  | nil => simp [lines]
  | cons text texts =>
    have hne : "\n".intercalate (text :: texts) ≠ "" := by
      have hfirst := (h text (by simp)).ne_empty
      cases texts <;> simp [String.intercalate_cons_cons, hfirst]
    have hsplit := String.toList_split_intercalate (c := '\n') (l := text :: texts)
      fun line hline => (h line hline).1
    rw [lines, if_neg hne]
    simpa using hsplit

end Text

open Text

/-! ## The words of code -/

namespace Shape

mutual

/-- The type names and field names that a shape is written with. -/
def words : Shape → List String
  | .named name => [name]
  | .optional pointee => words pointee
  | .sequence elem _ => words elem
  | .record fields => wordsOfFields fields

def wordsOfFields : List (Field Shape) → List String
  | [] => []
  | ⟨name, type⟩ :: fields => name :: words type ++ wordsOfFields fields

end

theorem wordsOfFields_subset {fields : List (Field Shape)} {f : Field Shape} (hf : f ∈ fields) :
    f.name :: f.type.words ⊆ wordsOfFields fields := by
  induction fields with
  | nil => cases hf
  | cons g fields ih =>
    obtain ⟨name, type⟩ := g
    rcases List.mem_cons.mp hf with rfl | hf
    · exact List.subset_append_left ..
    · exact List.Subset.trans (ih hf) (List.subset_append_right ..)

theorem oneLine_extentText (extent : Extent) : OneLine (extentText extent) := by
  cases extent with
  | dynamic => simp [extentText, OneLine]
  | fixed length =>
    simp only [extentText, oneLine_append, oneLine_toString]
    simp [OneLine]

theorem oneLine_render {shape : Shape} (h : ∀ word ∈ shape.words, OneLine word) :
    OneLine shape.render := by
  induction shape using Shape.induction with
  | named name => exact h name (by simp [words])
  | optional pointee ih => exact oneLine_append.mpr ⟨by simp [OneLine], ih h⟩
  | sequence elem extent ih => exact oneLine_append.mpr ⟨oneLine_extentText extent, ih h⟩
  | record fields ih =>
    have hfields : ∀ text ∈ renderFields fields, OneLine text := by
      rw [renderFields_eq_map, List.forall_mem_map]
      intro f hf
      have hwords := wordsOfFields_subset hf
      have hname : OneLine f.name := h f.name (hwords (by simp))
      have htype := ih f hf fun word hword => h word (hwords (List.mem_cons_of_mem _ hword))
      exact oneLine_append.mpr ⟨oneLine_append.mpr ⟨hname, by simp [OneLine]⟩, htype⟩
    cases fields with
    | nil => simp [render, OneLine]
    | cons f fields =>
      have hbody : OneLine ("; ".intercalate (renderFields (f :: fields))) :=
        oneLine_intercalate (by simp [OneLine]) hfields
      rw [render]
      refine oneLine_append.mpr ⟨oneLine_append.mpr ⟨by simp [OneLine], hbody⟩, by simp [OneLine]⟩

end Shape

namespace Expr

mutual

/-- The names of all kinds that an expression is written with. The text of a string literal is none
of them. -/
def words : Expr → List String
  | .ident name => [name]
  | .int _ | .str _ => []
  | .access value _ args => words value ++ allWords args
  | .call callee args => words callee ++ allWords args
  | .cast type value => type :: words value
  | .field base name => name :: words base
  | .index base position => words base ++ words position
  | .deref pointer => words pointer
  | .not operand => words operand
  | .binary _ left right => words left ++ words right
  | .absent package _ => [package]
  | .new type | .composite type => type.words
  | .make type length => type.words ++ words length

def allWords : List Expr → List String
  | [] => []
  | e :: es => words e ++ allWords es

end

theorem of_allWords {P : String → Prop} {es : List Expr} {e : Expr}
    (h : ∀ word ∈ allWords es, P word) (he : e ∈ es) : ∀ word ∈ e.words, P word := by
  induction es with
  | nil => cases he
  | cons first es ih =>
    obtain ⟨hfirst, hothers⟩ := List.forall_mem_append.mp h
    rcases List.mem_cons.mp he with rfl | he
    · exact hfirst
    · exact ih hothers he

theorem renderAll_eq_map (es : List Expr) : renderAll es = es.map render := by
  induction es with
  | nil => rfl
  | cons e es ih => simp [renderAll, ih]

theorem oneLine_literal (text : String) : OneLine (literal text) := by
  have hescaped : ∀ c ∈ text.toList, '\n' ∉ escaped c := by
    intro c _
    grind [escaped]
  simpa [OneLine, literal] using hescaped

theorem oneLine_enclose {least : Nat} {operand : Expr} {text : String} (h : OneLine text) :
    OneLine (enclose least operand text) := by
  unfold enclose
  split
  · simpa [OneLine] using h
  · exact h

theorem oneLine_arguments {args : List Expr} (h : ∀ a ∈ args, OneLine a.render) :
    OneLine (", ".intercalate (renderAll args)) := by
  refine oneLine_intercalate (by simp [OneLine]) ?_
  rwa [renderAll_eq_map, List.forall_mem_map]

/-- An expression is written on one line if its names are. -/
theorem oneLine_render {e : Expr} (h : ∀ word ∈ e.words, OneLine word) : OneLine e.render := by
  induction e using Expr.induction with
  | ident name => exact h name (by simp [words])
  | int value => exact oneLine_toString value
  | str text => exact oneLine_literal text
  | access value accessor args ihValue ihArgs =>
    obtain ⟨hvalue, hargs⟩ := List.forall_mem_append.mp h
    have hbase : OneLine (enclose 6 value value.render) := oneLine_enclose (ihValue hvalue)
    have hothers := oneLine_arguments fun a ha => ihArgs a ha (of_allWords hargs ha)
    have hmethod : OneLine accessor.method := by cases accessor <;> simp [Accessor.method, OneLine]
    simp only [render, oneLine_append, hbase, hothers, hmethod]
    simp [OneLine]
  | call callee args ihCallee ihArgs =>
    obtain ⟨hcallee, hargs⟩ := List.forall_mem_append.mp h
    have hbase : OneLine (enclose 6 callee callee.render) := oneLine_enclose (ihCallee hcallee)
    have hothers := oneLine_arguments fun a ha => ihArgs a ha (of_allWords hargs ha)
    simp only [render, oneLine_append, hbase, hothers]
    simp [OneLine]
  | cast type value ih =>
    obtain ⟨htype, hvalue⟩ := List.forall_mem_cons.mp h
    simp only [render, oneLine_append, htype, ih hvalue]
    simp [OneLine]
  | field base name ih =>
    obtain ⟨hname, hbase⟩ := List.forall_mem_cons.mp h
    simp only [render, oneLine_append, hname, oneLine_enclose (ih hbase)]
    simp [OneLine]
  | index base position ihBase ihPosition =>
    obtain ⟨hbase, hposition⟩ := List.forall_mem_append.mp h
    simp only [render, oneLine_append, oneLine_enclose (ihBase hbase), ihPosition hposition]
    simp [OneLine]
  | deref pointer ih => exact oneLine_append.mpr ⟨by simp [OneLine], oneLine_enclose (ih h)⟩
  | not operand ih => exact oneLine_append.mpr ⟨by simp [OneLine], oneLine_enclose (ih h)⟩
  | binary op left right ihLeft ihRight =>
    obtain ⟨hleft, hright⟩ := List.forall_mem_append.mp h
    have hsign : OneLine op.sign := by cases op <;> simp [BinaryOp.sign, OneLine]
    simp only [render, oneLine_append, oneLine_enclose (ihLeft hleft),
      oneLine_enclose (ihRight hright), hsign]
    simp [OneLine]
  | absent package kind =>
    have hconstant : OneLine kind.constant := by
      cases kind <;> simp [AbsentKind.constant, OneLine]
    simp only [render, oneLine_append, h package (by simp [words]), hconstant]
    simp [OneLine]
  | new type =>
    simp only [render, oneLine_append, Shape.oneLine_render h]
    simp [OneLine]
  | make type length ih =>
    obtain ⟨htype, hlength⟩ := List.forall_mem_append.mp h
    simp only [render, oneLine_append, Shape.oneLine_render htype, ih hlength]
    simp [OneLine]
  | composite type =>
    simp only [render, oneLine_append, Shape.oneLine_render h]
    simp [OneLine]

end Expr

namespace Stmt

mutual

/-- The names of all kinds that a statement is written with. -/
def words : Stmt → List String
  | .declare name type => name :: type.words
  | .define name value => name :: value.words
  | .assign target value => target.words ++ value.words
  | .branch none condition body => condition.words ++ allWords body
  | .branch (some init) condition body => words init ++ (condition.words ++ allWords body)
  | .loop counter bound body => counter :: (bound.words ++ allWords body)

def allWords : List Stmt → List String
  | [] => []
  | s :: rest => words s ++ allWords rest

end

theorem of_allWords {P : String → Prop} {code : List Stmt} {s : Stmt}
    (h : ∀ word ∈ allWords code, P word) (hs : s ∈ code) : ∀ word ∈ s.words, P word := by
  induction code with
  | nil => cases hs
  | cons first code ih =>
    obtain ⟨hfirst, hothers⟩ := List.forall_mem_append.mp h
    rcases List.mem_cons.mp hs with rfl | hs
    · exact hfirst
    · exact ih hothers hs

theorem allLines_eq_flatMap (code : List Stmt) : allLines code = code.flatMap lines := by
  induction code with
  | nil => rfl
  | cons s code ih => simp [allLines, ih]

theorem lines_ne_nil (s : Stmt) : s.lines ≠ [] := by
  cases s with
  | branch init condition body =>
    cases init with
    | none => simp [lines, block]
    | some init =>
      rw [lines]
      split <;> simp [block]
  | _ => simp [lines, block]

/-! ## Lines -/

theorem isLine_block {header : String} {body : List String} (hheader : OneLine header)
    (hbody : ∀ line ∈ body, IsLine line) : ∀ line ∈ block header body, IsLine line := by
  have hopening : IsLine (header ++ " \x7b") :=
    ⟨oneLine_append.mpr ⟨hheader, by simp [OneLine]⟩, '\x7b', by simp, by decide⟩
  have hclosing : IsLine "\x7d" := ⟨by simp [OneLine], '\x7d', by simp, by decide⟩
  have hindented : ∀ line ∈ body, IsLine ("\t" ++ line) := by
    intro line hline
    obtain ⟨hone, c, hc, hblank⟩ := hbody line hline
    exact ⟨oneLine_append.mpr ⟨by simp [OneLine], hone⟩, c, by simp [hc], hblank⟩
  rw [block, List.forall_mem_append, List.forall_mem_cons, List.forall_mem_map,
    List.forall_mem_singleton]
  exact ⟨⟨hopening, hindented⟩, hclosing⟩

theorem isLine_declare {name : String} {type : Shape} (hname : OneLine name)
    (htype : ∀ word ∈ type.words, OneLine word) :
    IsLine ("var " ++ name ++ " " ++ type.render) := by
  refine ⟨?_, 'v', by simp, by decide⟩
  simp only [oneLine_append, hname, Shape.oneLine_render htype]
  simp [OneLine]

theorem isLine_define {name : String} {value : Expr} (hname : OneLine name)
    (hvalue : ∀ word ∈ value.words, OneLine word) : IsLine (name ++ " := " ++ value.render) := by
  refine ⟨?_, '=', by simp, by decide⟩
  simp only [oneLine_append, hname, Expr.oneLine_render hvalue]
  simp [OneLine]

theorem isLine_assign {target value : Expr} (htarget : ∀ word ∈ target.words, OneLine word)
    (hvalue : ∀ word ∈ value.words, OneLine word) :
    IsLine (target.render ++ " = " ++ value.render) := by
  refine ⟨?_, '=', by simp, by decide⟩
  simp only [oneLine_append, Expr.oneLine_render htarget, Expr.oneLine_render hvalue]
  simp [OneLine]

theorem isLine_headerText {init : Stmt} {text : String} (h : ∀ word ∈ init.words, OneLine word)
    (ht : init.headerText? = some text) : IsLine text := by
  cases init with
  | define name value =>
    cases ht
    obtain ⟨hname, hvalue⟩ := List.forall_mem_cons.mp h
    exact isLine_define hname hvalue
  | assign target value =>
    cases ht
    obtain ⟨htarget, hvalue⟩ := List.forall_mem_append.mp h
    exact isLine_assign htarget hvalue
  | declare | branch | loop => cases ht

theorem isLine_of_mem_allLines {code : List Stmt}
    (h : ∀ s ∈ code, ∀ line ∈ s.lines, IsLine line) : ∀ line ∈ allLines code, IsLine line := by
  rw [allLines_eq_flatMap]
  intro line hline
  obtain ⟨s, hs, hline⟩ := List.mem_flatMap.mp hline
  exact h s hs line hline

theorem isLine_of_mem_lines {s : Stmt} (h : ∀ word ∈ s.words, OneLine word) :
    ∀ line ∈ s.lines, IsLine line := by
  induction s using Stmt.induction with
  | declare name type =>
    obtain ⟨hname, htype⟩ := List.forall_mem_cons.mp h
    simpa [lines] using isLine_declare hname htype
  | define name value =>
    obtain ⟨hname, hvalue⟩ := List.forall_mem_cons.mp h
    simpa [lines] using isLine_define hname hvalue
  | assign target value =>
    obtain ⟨htarget, hvalue⟩ := List.forall_mem_append.mp h
    simpa [lines] using isLine_assign htarget hvalue
  | branch init condition body ihInit ihBody =>
    cases init with
    | none =>
      obtain ⟨hcondition, hbody⟩ := List.forall_mem_append.mp h
      have hinner := isLine_of_mem_allLines fun s hs => ihBody s hs (of_allWords hbody hs)
      exact isLine_block (oneLine_append.mpr ⟨by simp [OneLine], Expr.oneLine_render hcondition⟩)
        hinner
    | some init =>
      obtain ⟨hinit, hrest⟩ := List.forall_mem_append.mp h
      obtain ⟨hcondition, hbody⟩ := List.forall_mem_append.mp hrest
      have hinner := isLine_of_mem_allLines fun s hs => ihBody s hs (of_allWords hbody hs)
      rw [lines]
      split
      · next text ht =>
        refine isLine_block ?_ hinner
        simp only [oneLine_append, (isLine_headerText hinit ht).1, Expr.oneLine_render hcondition]
        simp [OneLine]
      · rw [List.forall_mem_append]
        refine ⟨ihInit init rfl hinit, isLine_block ?_ hinner⟩
        exact oneLine_append.mpr ⟨by simp [OneLine], Expr.oneLine_render hcondition⟩
  | loop counter bound body ih =>
    obtain ⟨hcounter, hrest⟩ := List.forall_mem_cons.mp h
    obtain ⟨hbound, hbody⟩ := List.forall_mem_append.mp hrest
    refine isLine_block ?_ (isLine_of_mem_allLines fun s hs => ih s hs (of_allWords hbody hs))
    simp only [oneLine_append, hcounter, Expr.oneLine_render hbound]
    simp [OneLine]

/-- The lines of the text of a statement list. -/
def printed (code : List Stmt) : List String := Text.lines (renderAll code)

theorem printed_eq {code : List Stmt} (h : ∀ word ∈ allWords code, OneLine word) :
    printed code = allLines code :=
  lines_intercalate (isLine_of_mem_allLines fun _ hs => isLine_of_mem_lines (of_allWords h hs))

theorem allLines_eq_nil_iff {code : List Stmt} : allLines code = [] ↔ code = [] := by
  cases code with
  | nil => simp [allLines]
  | cons s code => simp [allLines, lines_ne_nil s]

theorem renderAll_append {first second : List Stmt} (hfirst : first ≠ []) (hsecond : second ≠ []) :
    renderAll (first ++ second) = renderAll first ++ "\n" ++ renderAll second := by
  rw [renderAll, allLines_append]
  exact String.intercalate_append_of_ne_nil (mt allLines_eq_nil_iff.mp hfirst)
    (mt allLines_eq_nil_iff.mp hsecond)

/-- The lines of a block: its header with an opening brace, the lines of its body one tab further
in, and a closing brace. -/
def IsBlock (header : String) (body block : List String) : Prop :=
  block = [header ++ " \x7b"] ++ body.map ("\t" ++ ·) ++ ["\x7d"]

/-- How a statement is printed by itself: on one line, or as a block. What may not stand in the
header of a branch is printed before it. -/
def PrintsInBlocks : Stmt → Prop
  | .declare name type => printed [.declare name type] = ["var " ++ name ++ " " ++ type.render]
  | .define name value => printed [.define name value] = [name ++ " := " ++ value.render]
  | .assign target value =>
    printed [.assign target value] = [target.render ++ " = " ++ value.render]
  | .branch none condition body =>
    IsBlock ("if " ++ condition.render) (printed body) (printed [.branch none condition body])
  | .branch (some (.define name value)) condition body =>
    IsBlock ("if " ++ name ++ " := " ++ value.render ++ "; " ++ condition.render) (printed body)
      (printed [.branch (some (.define name value)) condition body])
  | .branch (some (.assign target value)) condition body =>
    IsBlock ("if " ++ target.render ++ " = " ++ value.render ++ "; " ++ condition.render)
      (printed body) (printed [.branch (some (.assign target value)) condition body])
  | .branch (some init) condition body =>
    renderAll [.branch (some init) condition body] =
      renderAll [init, .branch none condition body]
  | .loop counter bound body =>
    IsBlock
      ("for " ++ counter ++ " := 0; " ++ counter ++ " < " ++ bound.render ++ "; " ++ counter ++ "++")
      (printed body) (printed [.loop counter bound body])

theorem allWords_single {s : Stmt} (h : ∀ word ∈ s.words, OneLine word) :
    ∀ word ∈ allWords [s], OneLine word := by
  simpa [allWords] using h

theorem printed_single {s : Stmt} (h : ∀ word ∈ s.words, OneLine word) :
    printed [s] = s.lines := by
  rw [printed_eq (allWords_single h)]
  simp [allLines]

theorem printsInBlocks {s : Stmt} (h : ∀ word ∈ s.words, OneLine word) : s.PrintsInBlocks := by
  have hprinted := printed_single h
  cases s with
  | declare name type => exact hprinted
  | define name value => exact hprinted
  | assign target value => exact hprinted
  | branch init condition body =>
    cases init with
    | none =>
      have hbody := printed_eq (List.forall_mem_append.mp h).2
      rw [PrintsInBlocks, IsBlock, hprinted, hbody]
      rfl
    | some init =>
      have hbody := printed_eq (List.forall_mem_append.mp (List.forall_mem_append.mp h).2).2
      cases init with
      | define name value =>
        rw [PrintsInBlocks, IsBlock, hprinted, hbody]
        simp [lines, headerText?, block, String.append_assoc]
      | assign target value =>
        rw [PrintsInBlocks, IsBlock, hprinted, hbody]
        simp [lines, headerText?, block, String.append_assoc]
      | declare | branch | loop => simp [PrintsInBlocks, renderAll, allLines, lines, headerText?]
  | loop counter bound body =>
    have hbody := printed_eq (List.forall_mem_append.mp (List.forall_mem_cons.mp h).2).2
    rw [PrintsInBlocks, IsBlock, hprinted, hbody]
    rfl

end Stmt

theorem Binding.render_eq (binding : Binding) :
    binding.render =
      if binding.arguments.code = [] then binding.call.render
      else Stmt.renderAll binding.arguments.code ++ "\n" ++ binding.call.render := by
  unfold Binding.render Stmt.renderAll
  split
  · next h => simp [h, Stmt.allLines]
  · next h =>
    rw [String.intercalate_append_of_ne_nil (mt Stmt.allLines_eq_nil_iff.mp h) (by simp)]
    simp

theorem Binding.isLine_call {name : String} {arguments : Arguments}
    (hname : OneLine name) (hvalues : ∀ word ∈ Expr.allWords arguments.values, OneLine word) :
    IsLine (Binding.call ⟨name, arguments⟩).render := by
  refine ⟨Expr.oneLine_render ?_, '(', by simp [call, Expr.render], by decide⟩
  exact List.forall_mem_cons.mpr ⟨hname, hvalues⟩

namespace Stmt

/-- Code whose names have no line ends is printed statement by statement, each on one line or as a
block whose body is printed likewise and indented, whatever its string literals hold. No line is
blank, so none stands before the first or behind the last either. Texts of statement lists are put
together with one line end, and so is the call of a binding, which is a line of its own. -/
theorem renderAll_inBlocks {code : List Stmt} (h : ∀ word ∈ allWords code, OneLine word) :
    (∀ s ∈ code, s.PrintsInBlocks) ∧
    printed code = code.flatMap (fun s => printed [s]) ∧
    (∀ line ∈ printed code, ∃ c ∈ line.toList, isBlank c = false) ∧
    (∀ others, code ≠ [] → others ≠ [] →
      renderAll (code ++ others) = renderAll code ++ "\n" ++ renderAll others) ∧
    ∀ (name : String) (values : List Expr),
      let binding : Binding := ⟨name, ⟨values, code⟩⟩
      binding.render =
          (if code = [] then binding.call.render
            else renderAll code ++ "\n" ++ binding.call.render) ∧
        ((∀ word ∈ name :: Expr.allWords values, OneLine word) →
          Text.lines binding.render = printed code ++ [binding.call.render]) := by
  have hlines := isLine_of_mem_allLines fun s hs => isLine_of_mem_lines (of_allWords h hs)
  refine ⟨fun s hs => printsInBlocks (of_allWords h hs), ?_, ?_, ?_, ?_⟩
  · have hparts : code.map lines = code.map fun s => printed [s] :=
      List.map_congr_left fun s hs => (printed_single (of_allWords h hs)).symm
    rw [printed_eq h, allLines_eq_flatMap, List.flatMap_def, List.flatMap_def, hparts]
  · rw [printed_eq h]
    exact fun line hline => (hlines line hline).2
  · exact fun others hcode hothers => renderAll_append hcode hothers
  · intro name values binding
    refine ⟨binding.render_eq, fun hwords => ?_⟩
    obtain ⟨hname, hvalues⟩ := List.forall_mem_cons.mp hwords
    have hcall : IsLine binding.call.render := Binding.isLine_call hname hvalues
    rw [printed_eq h]
    exact lines_intercalate (List.forall_mem_append.mpr ⟨hlines, by simpa using hcall⟩)

/-- A literal with a line end, below a condition that is preceded by an empty loop. -/
def pause : Stmt := .loop "i" (.int 2) []

def note : Stmt := .assign (.field (.ident "r") "Note") (.str "first\nsecond")

theorem renderAll_inBlocks_pause :
    (∀ word ∈ allWords [.branch (some pause) (.ident "ok") [note]], OneLine word) ∧
      printed [pause, .branch none (.ident "ok") [note]] =
        ["for i := 0; i < 2; i++ \x7b", "\x7d", "if ok \x7b", "\tr.Note = \"first\\nsecond\"",
          "\x7d"] ∧
      renderAll [.branch (some pause) (.ident "ok") [note]] =
        renderAll [pause, .branch none (.ident "ok") [note]] := by
  have hwords : ∀ word ∈ allWords [.branch (some pause) (.ident "ok") [note]], OneLine word := by
    simp [allWords, words, Expr.words, pause, note, OneLine]
  have hnote : printed [note] = ["r.Note = \"first\\nsecond\""] := by
    have hbody : ∀ word ∈ allWords [note], OneLine word := by
      simp [allWords, words, Expr.words, note, OneLine]
    have h := (renderAll_inBlocks hbody).1 note (by simp)
    rw [note, PrintsInBlocks] at h
    rw [note, h]
    rfl
  have hhoisted : PrintsInBlocks (.branch (some pause) (.ident "ok") [note]) :=
    (renderAll_inBlocks hwords).1 _ List.mem_cons_self
  have hapart : ∀ word ∈ allWords [pause, .branch none (.ident "ok") [note]], OneLine word := by
    simp [allWords, words, Expr.words, pause, note, OneLine]
  obtain ⟨hblocks, hprinted, -⟩ := renderAll_inBlocks hapart
  have hpause : PrintsInBlocks pause := hblocks _ (by simp)
  have hbranch : PrintsInBlocks (.branch none (.ident "ok") [note]) := hblocks _ (by simp)
  have hnil : printed [] = [] := by simp [printed, renderAll, allLines, Text.lines]
  rw [pause, PrintsInBlocks, IsBlock, hnil] at hpause
  rw [PrintsInBlocks, IsBlock, hnote] at hbranch
  refine ⟨hwords, ?_, hhoisted⟩
  rw [hprinted, List.flatMap_cons, List.flatMap_cons, List.flatMap_nil, hbranch, pause, hpause]
  rfl

end Stmt

end Unmarshal
