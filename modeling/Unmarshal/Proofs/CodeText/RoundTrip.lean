import Unmarshal.Proofs.CodeText.Operands
import Unmarshal.Proofs.CodeText.Spelling

/-!
# Written expressions read back

The text of a printable expression is read as that expression. Every form is written from parts
that are written already, and parentheses stand where an operand could not be read in its place
without them.
-/
namespace Unmarshal.CodeText

open Text TypeText

/-! ## Printable expressions -/

/-- A word that may name a variable, a package or a field: any but a keyword. -/
def IsIdentifier (word : String) : Prop := isWord word = true ∧ word ∉ keywords

/-- A shape that some text is read as. -/
def IsRead (type : Shape) : Prop := ∃ text, TypeText.read text = .ok type

/-- The expressions whose parts can be written where they stand. A number in front of a dot would
be another number, a pointer type in front of braces would be the dereference of a literal, and a
field with the name of a constant could be that constant. Only calls of accessors are among them. -/
inductive Printable : Expr → Prop where
  | ident {name : String} (h : IsIdentifier name) : Printable (.ident name)
  | int (value : Nat) : Printable (.int value)
  | str (text : String) : Printable (.str text)
  | access {value : Expr} {accessor : Accessor} {args : List Expr}
      (hbase : ∀ n, value ≠ .int n) (h : Printable value) (hargs : ∀ a ∈ args, Printable a) :
      Printable (.access value accessor args)
  | cast {type : String} {value : Expr} (htype : (Scalar.ofName? type).isSome = true)
      (h : Printable value) : Printable (.cast type value)
  | field {base : Expr} {name : String} (hbase : ∀ n, base ≠ .int n) (h : Printable base)
      (hname : IsIdentifier name) (hconstant : ∀ kind : AbsentKind, name ≠ kind.constant) :
      Printable (.field base name)
  | index {base position : Expr} (h : Printable base) (k : Printable position) :
      Printable (.index base position)
  | deref {pointer : Expr} (h : Printable pointer) : Printable (.deref pointer)
  | not {operand : Expr} (h : Printable operand) : Printable (.not operand)
  | binary (op : BinaryOp) {left right : Expr} (h : Printable left) (k : Printable right) :
      Printable (.binary op left right)
  | absent {package : String} {kind : AbsentKind} (h : IsIdentifier package) :
      Printable (.absent package kind)
  | new {type : Shape} (htype : IsRead type) : Printable (.new type)
  | make {type : Shape} {length : Expr} (htype : IsRead type) (h : Printable length) :
      Printable (.make type length)
  | composite {type : Shape} (htype : IsRead type)
      (hpointer : ∀ pointee, type ≠ .optional pointee) : Printable (.composite type)

/-! ## Written forms -/

/-- The text has tokens that are read as the expression wherever an operand is awaited that binds
at least as tightly as `p`. -/
def Writes (p : Nat) (text : List Char) (e : Expr) : Prop :=
  ∃ ts, Spells text ts ∧ Reads p ts e

theorem Writes.parens {p : Nat} {text : List Char} {e : Expr} (h : Writes p text e) (q : Nat) :
    Writes q ('(' :: (text ++ [')'])) e := by
  obtain ⟨ts, hts, hreads⟩ := h
  refine ⟨_, (hts.then_mark .nil (by decide)).mark (by decide), reads_of_run ?_⟩
  intro frames rest
  have hclose := hreads.run_close (.parens :: frames) trivial (c := ')') (by simp) rest
  rw [List.cons_append, List.append_assoc]
  exact hclose

theorem writes_enclose {e : Expr} (h : Writes e.precedence e.render.toList e) {least : Nat} :
    Writes least (Expr.enclose least e e.render).toList e := by
  rw [Expr.enclose]
  split
  · simpa using h.parens least
  · next hle =>
    obtain ⟨ts, hts, hreads⟩ := h
    exact ⟨ts, hts, hreads.mono (by omega)⟩

/-! ### Atoms -/

theorem writes_ident {name : String} (h : IsIdentifier name) :
    Writes 6 name.toList (.ident name) := by
  refine ⟨_, .word h.1, reads_of_run ?_⟩
  intro frames rest
  exact run_ident h.2 frames rest

theorem decimal?_toString (n : Nat) : decimal? (toString n) = some n := by
  have hvalue : Nat.ofDigitChars 10 (toString n).toList 0 = n := by
    rw [Nat.toString_eq_repr, Nat.toList_repr]
    exact Nat.ofDigitChars_ten_toDigits
  simp only [decimal?, hvalue, if_true]

theorem writes_int (n : Nat) : Writes 6 (toString n).toList (.int n) := by
  refine ⟨_, .number n, reads_of_run ?_⟩
  intro frames rest
  simp only [run, State.step, takeOperand, decimal?_toString, List.cons_append]
  rfl

theorem writes_str (text : String) : Writes 6 (Expr.literal text).toList (.str text) :=
  ⟨_, .literal text, reads_of_run fun _ _ => rfl⟩

theorem writes_absent {package : String} (h : IsIdentifier package) (kind : AbsentKind) :
    Writes 6 (package.toList ++ '.' :: kind.constant.toList) (.absent package kind) := by
  have hword : isWord kind.constant = true := by cases kind <;> decide +kernel
  refine ⟨_, (Spells.word h.1).then_mark (.word hword) (by decide), reads_of_run ?_⟩
  intro frames rest
  have htake : takeSelector (.ident package) frames kind.constant =
      some (.after (.absent package kind) frames) := by
    simp [takeSelector, absentKind?_constant]
  rw [List.append_assoc, List.singleton_append, run_ident h.2, List.cons_append,
    run_dot (by simp), List.singleton_append, run, State.step, htake]
  rfl

theorem writes_new {type : Shape} (h : type.WellFormed) :
    Writes 6 ("new".toList ++ '(' :: (type.render.toList ++ [')'])) (.new type) := by
  obtain ⟨ts, hts, hspells⟩ := spells_type h
  have hword : isWord "new" = true := by decide +kernel
  refine ⟨_, (Spells.word hword).then_mark (hspells.then_mark .nil (by decide)) (by decide),
    reads_of_run ?_⟩
  intro frames rest
  have htype := run_derives .new hts frames (l := .mark ')') (by decide) rest
  rw [List.append_assoc, List.singleton_append, run_ident (by decide), List.cons_append,
    List.append_assoc]
  exact htype

/-! ### Behind an operand -/

theorem Writes.field {base : Expr} {name : String} {text : List Char} (h : Writes 6 text base)
    (hbase : ∀ n, base ≠ .int n) (hname : IsIdentifier name)
    (hconstant : ∀ kind : AbsentKind, name ≠ kind.constant) :
    Writes 6 (text ++ '.' :: name.toList) (.field base name) := by
  obtain ⟨ts, hts, hreads⟩ := h
  refine ⟨_, hts.then_mark (.word hname.1) (by decide), reads_of_run ?_⟩
  intro frames rest
  rw [List.append_assoc, hreads.run_tight]
  exact (run_dot hbase _ _).trans (run_field hname.2 (absentKind?_eq_none hconstant) _ _ _)

theorem Writes.index {base position : Expr} {p : Nat} {text inside : List Char}
    (h : Writes 6 text base) (k : Writes p inside position) :
    Writes 6 (text ++ '[' :: (inside ++ [']'])) (.index base position) := by
  obtain ⟨ts, hts, hreads⟩ := h
  obtain ⟨us, hus, hinside⟩ := k
  refine ⟨_, hts.then_mark (hus.then_mark .nil (by decide)) (by decide), reads_of_run ?_⟩
  intro frames rest
  have hclose := hinside.run_close (.position base :: frames) trivial (c := ']') (by simp) rest
  rw [List.append_assoc, hreads.run_tight, List.cons_append, List.append_assoc]
  exact hclose

/-- What is written for one argument or more is read up to the parenthesis that ends the call,
behind the arguments that were read before. -/
private theorem spells_arguments_cons {a : Expr} {args : List Expr}
    (h : ∀ b ∈ a :: args, Writes b.precedence b.render.toList b) :
    ∃ ts, Spells (", ".intercalate (Expr.renderAll (a :: args))).toList ts ∧
      ∀ value accessor done frames rest,
        run (.operand (.arguments value accessor done :: frames))
            (ts ++ .plain (.mark ')') :: rest) =
          run (.after (.access value accessor (done ++ a :: args)) frames) rest := by
  induction args generalizing a with
  | nil =>
    obtain ⟨ts, hts, hreads⟩ := h a (.head _)
    refine ⟨ts, by simpa [Expr.renderAll] using hts, ?_⟩
    intro value accessor done frames rest
    exact hreads.run_close (.arguments value accessor done :: frames) trivial (c := ')')
      (by simp) rest
  | cons b args ih =>
    obtain ⟨ts, hts, hreads⟩ := h a (.head _)
    obtain ⟨us, hus, hothers⟩ := ih fun b hb => h b (.tail _ hb)
    refine ⟨ts ++ .plain (.mark ',') :: us, ?_, ?_⟩
    · simpa [Expr.renderAll, String.intercalate_cons_cons] using
        hts.then_mark hus.blank (c := ',') (by decide)
    · intro value accessor done frames rest
      have hclose := hreads.run_close (.arguments value accessor done :: frames) trivial
        (c := ',') (by simp) (us ++ .plain (.mark ')') :: rest)
      have hrest := hothers value accessor (done ++ [a]) frames rest
      rw [List.append_assoc] at hrest
      rw [List.append_assoc]
      exact hclose.trans hrest

theorem spells_arguments {args : List Expr}
    (h : ∀ a ∈ args, Writes a.precedence a.render.toList a) (value : Expr) (accessor : Accessor) :
    ∃ ts, Spells (", ".intercalate (Expr.renderAll args)).toList ts ∧
      ∀ frames rest, run (.operand (.arguments value accessor [] :: frames))
          (ts ++ .plain (.mark ')') :: rest) =
        run (.after (.access value accessor args) frames) rest := by
  cases args with
  | nil => exact ⟨[], .nil, fun _ _ => rfl⟩
  | cons a args =>
    obtain ⟨ts, hts, hrun⟩ := spells_arguments_cons h
    exact ⟨ts, hts, hrun value accessor []⟩

theorem Writes.access {value : Expr} {accessor : Accessor} {args : List Expr} {text : List Char}
    (h : Writes 6 text value) (hbase : ∀ n, value ≠ .int n)
    (hargs : ∀ a ∈ args, Writes a.precedence a.render.toList a) :
    Writes 6 (text ++ '.' :: (accessor.method.toList ++
      '(' :: ((", ".intercalate (Expr.renderAll args)).toList ++ [')'])))
      (.access value accessor args) := by
  have hmethod : isWord accessor.method = true ∧ accessor.method ∉ keywords ∧
      absentKind? accessor.method = none := by
    cases accessor <;> decide +kernel
  obtain ⟨ts, hts, hreads⟩ := h
  obtain ⟨us, hus, hrun⟩ := spells_arguments hargs value accessor
  have hcall := (Spells.word hmethod.1).then_mark (c := '(')
    (hus.then_mark .nil (c := ')') (by decide)) (by decide)
  refine ⟨_, hts.then_mark hcall (by decide), reads_of_run ?_⟩
  intro frames rest
  have hopen : openCall frames (.field value accessor.method) =
      some (.operand (.arguments value accessor [] :: frames)) := by
    simp [openCall, accessor?_method]
  rw [List.append_assoc, hreads.run_tight, List.cons_append, run_dot hbase, List.append_assoc,
    List.singleton_append, run_field hmethod.2.1 hmethod.2.2, List.cons_append, List.append_assoc,
    run, State.step, takeAfter, hopen]
  exact hrun frames rest

/-! ### In front of an operand, and around it -/

theorem Writes.deref {pointer : Expr} {text : List Char} (h : Writes 5 text pointer) :
    Writes 5 ('*' :: text) (.deref pointer) := by
  obtain ⟨ts, hts, hreads⟩ := h
  refine ⟨_, hts.mark (by decide), ?_⟩
  intro frames _
  obtain ⟨value, pending, hstands, hrun⟩ := hreads (.deref :: frames) (Nat.le_refl 5)
  exact ⟨value, pending, ⟨hstands.collapsed, by omega⟩, hrun⟩

theorem Writes.not {operand : Expr} {text : List Char} (h : Writes 5 text operand) :
    Writes 5 ('!' :: text) (.not operand) := by
  obtain ⟨ts, hts, hreads⟩ := h
  obtain ⟨t, us, rfl, ht⟩ := hreads.head
  refine ⟨_, hts.not ht, ?_⟩
  intro frames _
  obtain ⟨value, pending, hstands, hrun⟩ := hreads (.not :: frames) (Nat.le_refl 5)
  exact ⟨value, pending, ⟨hstands.collapsed, by omega⟩, hrun⟩

theorem Writes.cast {value : Expr} {type : String} {p : Nat} {inside : List Char}
    (htype : (Scalar.ofName? type).isSome = true) (h : Writes p inside value) :
    Writes 6 (type.toList ++ '(' :: (inside ++ [')'])) (.cast type value) := by
  obtain ⟨ts, hts, hreads⟩ := h
  obtain ⟨scalar, hscalar⟩ := Option.isSome_iff_exists.mp htype
  obtain rfl := Scalar.name_of_ofName? hscalar
  have hword : isWord scalar.name = true ∧ scalar.name ∉ keywords ∧ scalar.name ≠ "new" ∧
      scalar.name ≠ "make" := by
    cases scalar <;> decide +kernel
  refine ⟨_, (Spells.word hword.1).then_mark (hts.then_mark .nil (by decide)) (by decide),
    reads_of_run ?_⟩
  intro frames rest
  have hopen : openCall frames (.ident scalar.name) =
      some (.operand (.conversion scalar.name :: frames)) := by
    simp [openCall, hword, hscalar]
  have hclose := hreads.run_close (.conversion scalar.name :: frames) trivial (c := ')')
    (by simp) rest
  rw [List.append_assoc, List.singleton_append, run_ident hword.2.1, List.cons_append,
    List.append_assoc, run, State.step, takeAfter, hopen]
  exact hclose

theorem Writes.make {type : Shape} {length : Expr} {p : Nat} {inside : List Char}
    (htype : type.WellFormed) (h : Writes p inside length) :
    Writes 6 ("make".toList ++ '(' :: (type.render.toList ++ ',' :: ' ' :: (inside ++ [')'])))
      (.make type length) := by
  obtain ⟨ts, hts, hspells⟩ := spells_type htype
  obtain ⟨us, hus, hreads⟩ := h
  have hword : isWord "make" = true := by decide +kernel
  refine ⟨_, (Spells.word hword).then_mark
    (hspells.then_mark (hus.then_mark .nil (by decide)).blank (by decide)) (by decide),
    reads_of_run ?_⟩
  intro frames rest
  have htaken := run_derives .make hts frames (l := .mark ',') (by decide)
    (us ++ .plain (.mark ')') :: rest)
  have hclose := hreads.run_close (.length type :: frames) trivial (c := ')') (by simp) rest
  rw [List.append_assoc, List.singleton_append, run_ident (by decide), List.cons_append,
    List.append_assoc, List.cons_append, List.append_assoc]
  exact htaken.trans hclose

/-! ### Operators -/

theorem precedence_eq_level (op : BinaryOp) : op.precedence = level op := by
  cases op <;> rfl

/-- The operand on the right binds more tightly than the operator, so the one on the left is
complete before it and takes the operator with it. -/
theorem Writes.binary {op : BinaryOp} {left right : Expr} {text other : List Char}
    (h : Writes (level op) text left) (k : Writes (level op + 1) other right) :
    Writes (level op) (text ++ ' ' :: (op.sign.toList ++ ' ' :: other))
      (.binary op left right) := by
  obtain ⟨ts, hts, hleft⟩ := h
  obtain ⟨us, hus, hright⟩ := k
  have hlevel : level op < 5 := by cases op <;> decide
  refine ⟨_, hts.then_blank (hus.blank.sign op), ?_⟩
  intro frames hframes
  obtain ⟨value, pending, hstands, hrun⟩ := hleft frames hframes
  obtain ⟨last, behind, hstandsRight, hrunRight⟩ :=
    hright (.operator op left :: frames) (Nat.lt_succ_self _)
  -- the operator completes what is pending of the left operand, and nothing of the stack below it
  have hcollapse : collapse (level op) value pending = (left, frames) := by
    rw [hstands.collapsed _ (Nat.le_refl _), collapse_of_admits hframes hlevel]
  refine ⟨last, behind, ⟨?_, by omega⟩, ?_⟩
  · intro q hq
    rw [hstandsRight.collapsed q (by omega), collapse, if_pos hq]
  · intro rest
    rw [List.append_assoc, hrun, List.cons_append, run, State.step, takeAfter, hcollapse]
    exact hrunRight rest

/-! ### Composite literals -/

theorem writes_composite_sequence {elem : Shape} {extent : Extent}
    (h : (Shape.sequence elem extent).WellFormed) :
    Writes 6 ((Shape.sequence elem extent).render.toList ++ ['\x7b', '\x7d'])
      (.composite (.sequence elem extent)) := by
  obtain ⟨ts, hts, hspells⟩ := spells_type h
  have hbracket : ∃ rest, (Shape.sequence elem extent).render.toList = '[' :: rest := by
    cases extent <;> exact ⟨_, by simp [Shape.render, Shape.extentText]; rfl⟩
  obtain ⟨rest, hrest⟩ := hbracket
  obtain ⟨us, rfl⟩ := eq_cons_of_spells hspells (by rw [hrest]; exact scan_mark rest (by decide))
  refine ⟨_, hspells.then_mark (Spells.nil.mark (by decide)) (by decide), reads_of_run ?_⟩
  intro frames rest
  rw [List.append_assoc]
  exact run_composite hts (.inl rfl) frames rest

theorem writes_composite_record {fields : List (Field Shape)}
    (h : (Shape.record fields).WellFormed) :
    Writes 6 ((Shape.record fields).render.toList ++ ['\x7b', '\x7d'])
      (.composite (.record fields)) := by
  obtain ⟨ts, hts, hspells⟩ := spells_type h
  have hstruct : ∃ rest, (Shape.record fields).render.toList = "struct".toList ++ rest ∧
      StopsAt continuesWord rest := by
    cases fields with
    | nil => exact ⟨['\x7b', '\x7d'], rfl, stopsAt_mark _ (by decide)⟩
    | cons f fields =>
      refine ⟨" \x7b ".toList ++ (("; ".intercalate (Shape.renderFields (f :: fields))).toList ++
        " \x7d".toList), ?_, stopsAt_blank _ (by decide)⟩
      simp only [Shape.render, String.toList_append, List.append_assoc]
      rfl
  obtain ⟨rest, hrest, hstop⟩ := hstruct
  have hword : isWord "struct" = true := by decide +kernel
  obtain ⟨us, rfl⟩ := eq_cons_of_spells hspells (by rw [hrest]; exact Spells.word hword rest hstop)
  refine ⟨_, hspells.then_mark (Spells.nil.mark (by decide)) (by decide), reads_of_run ?_⟩
  intro frames rest
  rw [List.append_assoc]
  exact run_composite hts (.inr ⟨"struct", by decide, rfl⟩) frames rest

theorem writes_composite_named {name : String} (h : Shape.IsTypeName name) :
    Writes 6 (name.toList ++ ['\x7b', '\x7d']) (.composite (.named name)) := by
  have hbraces : Spells ['\x7d'] [.plain (.mark '\x7d')] := Spells.nil.mark (by decide)
  obtain ⟨first, hfirst, hreserved, rfl | ⟨member, hmember, rfl⟩⟩ := h
  · refine ⟨_, (Spells.word hfirst).then_mark hbraces (by decide), reads_of_run ?_⟩
    intro frames rest
    rw [List.append_assoc]
    -- a keyword is a type from the start, any other word is an operand until the braces
    by_cases hkeyword : name ∈ keywords
    · exact run_composite (.named hreserved) (.inr ⟨name, hkeyword, rfl⟩) frames rest
    · rw [List.singleton_append, run_ident hkeyword]
      exact run_braces rfl frames rest
  · have hname := (Spells.word hfirst).then_mark (.word hmember) (c := '.') (by decide)
    refine ⟨_, by simpa using hname.then_mark hbraces (by decide), reads_of_run ?_⟩
    intro frames rest
    by_cases hkeyword : first ∈ keywords
    · have hderives : Derives [.word first, .mark '.', .word member]
          (.named (first ++ "." ++ member)) := .qualified hreserved
      exact run_composite hderives (.inr ⟨first, hkeyword, rfl⟩) frames rest
    · exact run_member hkeyword member frames rest

theorem writes_composite {type : Shape} (h : type.WellFormed)
    (hpointer : ∀ pointee, type ≠ .optional pointee) :
    Writes 6 (type.render.toList ++ ['\x7b', '\x7d']) (.composite type) := by
  cases type with
  | named name => exact writes_composite_named (Shape.wellFormed_named.mp h)
  | optional pointee => exact absurd rfl (hpointer pointee)
  | sequence elem extent => exact writes_composite_sequence h
  | record fields => exact writes_composite_record h

/-! ## What is written reads back -/

theorem writes_render_printable {e : Expr} (h : Printable e) :
    Writes e.precedence e.render.toList e := by
  induction h with
  | ident h => exact writes_ident h
  | int value => exact writes_int value
  | str text => exact writes_str text
  | access hbase h hargs ih ihargs =>
    simpa [Expr.render, Expr.precedence] using (writes_enclose ih).access hbase ihargs
  | cast htype h ih => simpa [Expr.render, Expr.precedence] using ih.cast htype
  | field hbase h hname hconstant ih =>
    simpa [Expr.render, Expr.precedence] using (writes_enclose ih).field hbase hname hconstant
  | index h k ih ihPosition =>
    simpa [Expr.render, Expr.precedence] using (writes_enclose ih).index ihPosition
  | deref h ih => simpa [Expr.render, Expr.precedence] using (writes_enclose ih).deref
  | not h ih => simpa [Expr.render, Expr.precedence] using (writes_enclose ih).not
  | binary op h k ih ihRight =>
    simpa [Expr.render, Expr.precedence, precedence_eq_level] using
      (writes_enclose ih).binary (writes_enclose ihRight)
  | @absent package kind h => simpa [Expr.render, Expr.precedence] using writes_absent h kind
  | new htype =>
    obtain ⟨text, htext⟩ := htype
    simpa [Expr.render, Expr.precedence] using writes_new (wellFormed_of_read htext)
  | make htype h ih =>
    obtain ⟨text, htext⟩ := htype
    simpa [Expr.render, Expr.precedence] using ih.make (wellFormed_of_read htext)
  | composite htype hpointer =>
    obtain ⟨text, htext⟩ := htype
    simpa [Expr.render, Expr.precedence] using writes_composite (wellFormed_of_read htext) hpointer

theorem read?_render {e : Expr} (h : Printable e) : read? e.render = some e := by
  obtain ⟨ts, hts, hreads⟩ := writes_render_printable h
  rw [read?, hts.scan]
  exact hreads.run

/-- What is written for an expression reads back as that expression. A literal ends where it
should, whatever it says and whatever follows it, and no two expressions are written alike. -/
theorem read_render_printable :
    (∀ e : Expr, Printable e → read? e.render = some e) ∧
      (∀ (text : String) (rest : List Char),
        scan ((Expr.literal text).toList ++ rest) = (scan rest).map (.literal text :: ·)) ∧
      ∀ e f : Expr, Printable e → Printable f → e.render = f.render → e = f := by
  refine ⟨fun e => read?_render, scan_literal, ?_⟩
  intro e f he hf hrender
  have hread := read?_render he
  rw [hrender, read?_render hf] at hread
  exact (Option.some.inj hread).symm

/-- The field of a dereference, a literal with a quote and a backslash, and operators on the right
of operators. -/
theorem read_render_printable_nested :
    read? "(*p).rows.Get(\"a\\\"\\\\\") == !(b || (c || make([]*int, 3)))" =
      some (.binary .eq (.access (.field (.deref (.ident "p")) "rows") .get [.str "a\"\\"])
        (.not (.binary .or (.ident "b") (.binary .or (.ident "c")
          (.make (.sequence (.optional (.named "int")) .dynamic) (.int 3)))))) := by
  have hident : ∀ name ∈ ["p", "rows", "b", "c"], IsIdentifier name := by
    unfold IsIdentifier
    decide +kernel
  have hrows : ∀ kind : AbsentKind, "rows" ≠ kind.constant := by
    intro kind
    cases kind <;> decide
  have htype : IsRead (.sequence (.optional (.named "int")) .dynamic) := by
    have hlexemes : (tokens "[]*int").map TypeText.Token.lexeme =
        [.mark '[', .mark ']', .mark '*', .word "int"] := by
      decide +kernel
    exact ⟨"[]*int", read_eq_ok_iff.mpr (hlexemes ▸ .slice (.pointer (.named (by decide))))⟩
  have hfield : Printable (.field (.deref (.ident "p")) "rows") :=
    .field (by simp) (.deref (.ident (hident _ (by simp)))) (hident _ (by simp)) hrows
  have haccess : Printable (.access (.field (.deref (.ident "p")) "rows") .get [.str "a\"\\"]) :=
    .access (by simp) hfield (by simpa using .str _)
  have hmake := Printable.make htype (.int 3)
  have hor := (Printable.ident (hident "b" (by simp))).binary .or
    ((Printable.ident (hident "c" (by simp))).binary .or hmake)
  have hread := read_render_printable.1 _ (haccess.binary .eq hor.not)
  exact (congrArg read? (by decide +kernel)).trans hread

end Unmarshal.CodeText
