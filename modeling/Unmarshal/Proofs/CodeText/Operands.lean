import Unmarshal.Proofs.CodeText.Reader
import Unmarshal.Proofs.TypeText.Acceptance

/-!
# Tokens of an operand

What the reader makes of the tokens of one operand or of one type, whatever follows them. Behind an
operand the forms in front of it may still be open; what matters is what an operator or the end of
a bracket completes them to.
-/
namespace Unmarshal.CodeText

open TypeText

/-! ## Stacks -/

/-- The forms on the stack leave an operand alone that binds at least as tightly as `least`. From
level 5 on, above the operators, stand the operands of the forms that are written in front. -/
def Admits (least : Nat) : List Frame → Prop
  | .deref :: _ | .not :: _ => 5 ≤ least
  | .operator op _ :: _ => level op < least
  | _ => True

theorem Admits.mono {least more : Nat} {frames : List Frame} (h : Admits least frames)
    (hle : least ≤ more) : Admits more frames := by
  unfold Admits at h ⊢
  split <;> simp_all <;> omega

theorem collapse_of_admits {least : Nat} {frames : List Frame} (h : Admits least frames)
    (hlt : least < 5) (value : Expr) : collapse least value frames = (value, frames) := by
  unfold collapse
  split <;> simp_all [Admits] <;> omega

/-! ## Operands -/

/-- With `value` read and `pending` open, the reader is where it would be with `e` over `frames`: an
operator of level `p` or less completes both to the same. Above level 5 nothing is pending. -/
structure Stands (p : Nat) (e : Expr) (frames : List Frame) (value : Expr) (pending : List Frame) :
    Prop where
  collapsed : ∀ q ≤ p, collapse q value pending = collapse q e frames
  tight : 5 < p → value = e ∧ pending = frames

theorem Stands.self {p : Nat} {e : Expr} {frames : List Frame} : Stands p e frames e frames :=
  ⟨fun _ _ => rfl, fun _ => ⟨rfl, rfl⟩⟩

/-- Where an operand is awaited that binds at least as tightly as `p`, the reader takes the tokens
as the expression. -/
def Reads (p : Nat) (ts : List Token) (e : Expr) : Prop :=
  ∀ frames, Admits p frames → ∃ value pending, Stands p e frames value pending ∧
    ∀ rest, run (.operand frames) (ts ++ rest) = run (.after value pending) rest

theorem Reads.mono {p least : Nat} {ts : List Token} {e : Expr} (h : Reads p ts e)
    (hle : least ≤ p) : Reads least ts e := by
  intro frames hframes
  obtain ⟨value, pending, hstands, hrun⟩ := h frames (hframes.mono hle)
  exact ⟨value, pending, ⟨fun q hq => hstands.collapsed q (by omega),
    fun hlt => hstands.tight (by omega)⟩, hrun⟩

theorem reads_of_run {p : Nat} {ts : List Token} {e : Expr}
    (h : ∀ frames rest, run (.operand frames) (ts ++ rest) = run (.after e frames) rest) :
    Reads p ts e :=
  fun frames _ => ⟨e, frames, .self, h frames⟩

theorem Reads.run_tight {ts : List Token} {e : Expr} (h : Reads 6 ts e) (frames : List Frame)
    (rest : List Token) : run (.operand frames) (ts ++ rest) = run (.after e frames) rest := by
  have hadmits : Admits 6 frames := by
    unfold Admits
    split
    · omega
    · omega
    · next op _ _ => cases op <;> decide
    · trivial
  obtain ⟨value, pending, hstands, hrun⟩ := h frames hadmits
  obtain ⟨rfl, rfl⟩ := hstands.tight (by omega)
  exact hrun rest

theorem Reads.run {p : Nat} {ts : List Token} {e : Expr} (h : Reads p ts e) :
    run (.operand []) ts = some e := by
  obtain ⟨value, pending, hstands, hrun⟩ := h [] trivial
  have hall := hrun []
  rw [List.append_nil] at hall
  rw [hall, CodeText.run, State.finish, hstands.collapsed 0 (by omega)]
  rfl

theorem Reads.head {p : Nat} {ts : List Token} {e : Expr} (h : Reads p ts e) :
    ∃ t us, ts = t :: us ∧ t ≠ .sign .eq := by
  have hrun := h.run
  cases ts with
  | nil => cases hrun
  | cons t us =>
    refine ⟨t, us, rfl, ?_⟩
    rintro rfl
    cases hrun

/-- The end of a bracket or of an argument completes the expression in it. -/
theorem Reads.run_close {p : Nat} {ts : List Token} {e : Expr} (h : Reads p ts e)
    (frames : List Frame) (hstop : Admits 0 frames) {c : Char} (hc : c ∈ [')', ']', ','])
    (rest : List Token) :
    CodeText.run (.operand frames) (ts ++ .plain (.mark c) :: rest) =
      (close c (e, frames)).bind fun state => CodeText.run state rest := by
  obtain ⟨value, pending, hstands, hrun⟩ := h frames (hstop.mono (by omega))
  have hcollapse : collapse 0 value pending = (e, frames) := by
    rw [hstands.collapsed 0 (by omega), collapse_of_admits hstop (by omega)]
  have htake : takeAfter value pending (.plain (.mark c)) = close c (collapse 0 value pending) := by
    simp only [List.mem_cons, List.not_mem_nil, or_false] at hc
    rcases hc with rfl | rfl | rfl <;> rfl
  rw [hrun, CodeText.run, State.step, htake, hcollapse]

/-! ## Types -/

theorem step_of_finish {reader : TypeText.State} {type : Shape}
    (h : reader.finish 0 = .ok type) {l : Lexeme} (hl : l ≠ .mark '.') :
    reader.step ⟨l, .point 0⟩ = .ok (.complete type) := by
  have hat : ∀ awaiting frames, TypeText.finish 0 awaiting = .ok type →
      take awaiting frames ⟨l, .point 0⟩ = .ok (.complete type) := by
    intro awaiting frames hawaiting
    cases awaiting with
    | nothing shape =>
      cases hawaiting
      rfl
    | _ => cases hawaiting
  cases reader with
  | «at» awaiting frames => exact hat awaiting frames h
  | afterName name span frames =>
    rw [TypeText.State.step, if_neg hl]
    rw [TypeText.State.finish] at h
    split at h
    · next hclose => simpa [hclose] using hat _ _ h
    · cases h

/-- The reader of a type takes its lexemes and no more of them. -/
theorem run_type (use : TypeUse) {reader : TypeText.State} {ts : List Lexeme} {type : Shape}
    (h : TypeText.run 0 reader (ts.map fun l => ⟨l, .point 0⟩) = .ok (type, []))
    (frames : List Frame) {l : Lexeme} (hl : l ≠ .mark '.') (rest : List Token) :
    run (.type use reader frames) (ts.map .plain ++ .plain l :: rest) =
      (endType use type frames l).bind fun state => run state rest := by
  -- the induction follows the run of the reader of types, which ends where `l` stands
  induction ts generalizing reader with
  | nil =>
    have hfinish : reader.finish 0 = .ok type := by
      cases hf : reader.finish 0 with
      | ok found =>
        rw [List.map_nil, TypeText.run, hf] at h
        cases h
        rfl
      | error e =>
        rw [List.map_nil, TypeText.run, hf] at h
        cases h
    rw [List.map_nil, List.nil_append, run, State.step, takeType, step_of_finish hfinish hl]
  | cons t ts ih =>
    rw [List.map_cons, TypeText.run] at h
    split at h
    · next next hstep =>
      rw [List.map_cons, List.cons_append, run, State.step, takeType, hstep]
      exact ih h
    · cases h
    · cases h

theorem run_derives (use : TypeUse) {ts : List Lexeme} {type : Shape} (h : Derives ts type)
    (frames : List Frame) {l : Lexeme} (hl : l ≠ .mark '.') (rest : List Token) :
    run (.type use .start frames) (ts.map .plain ++ .plain l :: rest) =
      (endType use type frames l).bind fun state => run state rest := by
  refine run_type use ((run_start_iff 0).mpr ?_) frames hl rest
  simpa [Function.comp_def] using h

/-- A type that starts as no operand does is read as a type from its first lexeme. -/
theorem run_composite {l : Lexeme} {ts : List Lexeme} {type : Shape} (h : Derives (l :: ts) type)
    (hl : l = .mark '[' ∨ ∃ word ∈ keywords, l = .word word) (frames : List Frame)
    (rest : List Token) :
    run (.operand frames)
        ((l :: ts).map .plain ++ .plain (.mark '\x7b') :: .plain (.mark '\x7d') :: rest) =
      run (.after (.composite type) frames) rest := by
  have hopen : takeOperand frames (.plain l) = takeType .composite .start frames l := by
    obtain rfl | ⟨word, hword, rfl⟩ := hl
    · rfl
    · simp [takeOperand, hword]
  have htype := run_derives .composite h frames (l := .mark '\x7b') (by decide)
    (.plain (.mark '\x7d') :: rest)
  have hfirst : ∀ tokens, run (.operand frames) (.plain l :: tokens) =
      run (.type .composite .start frames) (.plain l :: tokens) := by
    intro tokens
    simp only [run, State.step, hopen]
  exact (hfirst _).trans htype

/-! ## Words -/

theorem run_ident {name : String} (h : name ∉ keywords) (frames : List Frame)
    (rest : List Token) :
    run (.operand frames) (.plain (.word name) :: rest) =
      run (.after (.ident name) frames) rest := by
  simp [run, State.step, takeOperand, h]

theorem run_dot {value : Expr} (h : ∀ n, value ≠ .int n) (frames : List Frame)
    (rest : List Token) :
    run (.after value frames) (.plain (.mark '.') :: rest) = run (.selector value frames) rest := by
  cases value with
  | int n => exact absurd rfl (h n)
  | _ => rfl

theorem absentKind?_constant (kind : AbsentKind) : absentKind? kind.constant = some kind := by
  cases kind <;> rfl

theorem constant_of_absentKind? {word : String} {kind : AbsentKind}
    (h : absentKind? word = some kind) : kind.constant = word := by
  unfold absentKind? at h
  split at h <;> cases h <;> rfl

theorem absentKind?_eq_none {word : String} (h : ∀ kind : AbsentKind, word ≠ kind.constant) :
    absentKind? word = none := by
  cases hkind : absentKind? word with
  | none => rfl
  | some kind => exact absurd (constant_of_absentKind? hkind).symm (h kind)

theorem accessor?_method (accessor : Accessor) : accessor? accessor.method = some accessor := by
  cases accessor <;> rfl

theorem run_field {name : String} (hname : name ∉ keywords) (hconstant : absentKind? name = none)
    (base : Expr) (frames : List Frame) (rest : List Token) :
    run (.selector base frames) (.plain (.word name) :: rest) =
      run (.after (.field base name) frames) rest := by
  have htake : takeSelector base frames name = some (.after (.field base name) frames) := by
    cases base <;> simp [takeSelector, hname, hconstant]
  rw [run, State.step, htake]
  rfl

/-- Braces behind what could be an operand show that it is a type. -/
theorem run_braces {value : Expr} {name : String} (h : typeName? value = some name)
    (frames : List Frame) (rest : List Token) :
    run (.after value frames) (.plain (.mark '\x7b') :: .plain (.mark '\x7d') :: rest) =
      run (.after (.composite (.named name)) frames) rest := by
  simp [run, State.step, takeAfter, h]

/-- Behind a package a word in front of braces is a type, whatever else it could be. -/
theorem run_member {package : String} (h : package ∉ keywords) (member : String)
    (frames : List Frame) (rest : List Token) :
    run (.operand frames) (.plain (.word package) :: .plain (.mark '.') :: .plain (.word member) ::
        .plain (.mark '\x7b') :: .plain (.mark '\x7d') :: rest) =
      run (.after (.composite (.named (package ++ "." ++ member))) frames) rest := by
  rw [run_ident h, run_dot (by simp)]
  cases hkind : absentKind? member with
  | some kind =>
    have htype : typeName? (.absent package kind) = some (package ++ "." ++ member) := by
      rw [typeName?, constant_of_absentKind? hkind]
    rw [← run_braces htype]
    simp [run, State.step, takeSelector, hkind]
  | none =>
    by_cases hkeyword : member ∈ keywords
    · simp [run, State.step, takeSelector, hkind, hkeyword, takeType, TypeText.State.step, take,
        endType]
    · rw [run_field hkeyword hkind]
      exact run_braces rfl frames rest

end Unmarshal.CodeText
