import Unmarshal.Shape.Basic

/-!
# Conversion code

The expressions and statements that unmarshal a dynamic value into native storage: declarations,
assignments, a guard against absent values, a counted loop, and calls of the dynamic value's
accessors.
-/
namespace Unmarshal

/-- A call that a dynamic value answers. -/
inductive Accessor where
  | bool
  | string
  | int
  | float
  | type
  | length
  | get
  | index
deriving DecidableEq, Repr

def Accessor.method : Accessor → String
  | .bool => "Bool"
  | .string => "String"
  | .int => "Int"
  | .float => "Float"
  | .type => "Type"
  | .length => "Length"
  | .get => "Get"
  | .index => "Index"

/-- The kinds of dynamic value that stand for no value. -/
inductive AbsentKind where
  | undefined
  | null
deriving DecidableEq, Repr

/-- The constant of the runtime package for a kind. -/
def AbsentKind.constant : AbsentKind → String
  | .undefined => "TypeUndefined"
  | .null => "TypeNull"

inductive BinaryOp where
  | eq
  | ne
  | lt
  | and
  | or
deriving DecidableEq, Repr

inductive Expr where
  | ident (name : String)
  | int (value : Nat)
  | str (text : String)
  | access (value : Expr) (accessor : Accessor) (args : List Expr)
  | call (callee : Expr) (args : List Expr)
  | cast (type : String) (value : Expr)
  | field (base : Expr) (name : String)
  | index (base : Expr) (position : Expr)
  | deref (pointer : Expr)
  | not (operand : Expr)
  | binary (op : BinaryOp) (left right : Expr)
  | absent (package : String) (kind : AbsentKind)
  | new (type : Shape)
  | make (type : Shape) (length : Expr)
  | composite (type : Shape)
deriving Inhabited, Repr

inductive Stmt where
  | declare (name : String) (type : Shape)
  | define (name : String) (value : Expr)
  | assign (target value : Expr)
  | branch (init : Option Stmt) (condition : Expr) (body : List Stmt)
  | loop (counter : String) (bound : Expr) (body : List Stmt)
deriving Inhabited, Repr

namespace Expr

/-- The call of an accessor that takes no argument. -/
def ask (value : Expr) (accessor : Accessor) : Expr := .access value accessor []

/-- The property of a dynamic value under a name. -/
def property (value : Expr) (name : String) : Expr := .access value .get [.str name]

/-- The element of a dynamic value at the position a local holds. -/
def element (value : Expr) (counter : String) : Expr := .access value .index [.ident counter]

/-- Induction over an expression, with the statement for every argument of a call. -/
@[elab_as_elim]
theorem induction {motive : Expr → Prop} (ident : ∀ name, motive (.ident name))
    (int : ∀ value, motive (.int value)) (str : ∀ text, motive (.str text))
    (access : ∀ value accessor args, motive value → (∀ a ∈ args, motive a) →
      motive (.access value accessor args))
    (call : ∀ callee args, motive callee → (∀ a ∈ args, motive a) → motive (.call callee args))
    (cast : ∀ type value, motive value → motive (.cast type value))
    (field : ∀ base name, motive base → motive (.field base name))
    (index : ∀ base position, motive base → motive position → motive (.index base position))
    (deref : ∀ pointer, motive pointer → motive (.deref pointer))
    (not : ∀ operand, motive operand → motive (.not operand))
    (binary : ∀ op left right, motive left → motive right → motive (.binary op left right))
    (absent : ∀ package kind, motive (.absent package kind)) (new : ∀ type, motive (.new type))
    (make : ∀ type length, motive length → motive (.make type length))
    (composite : ∀ type, motive (.composite type)) (e : Expr) : motive e := by
  apply Expr.rec (motive_1 := motive) (motive_2 := fun es => ∀ e ∈ es, motive e) <;> simp_all

end Expr

/-- Induction over a statement, with the statement for the init of a branch and for every statement
of a body. -/
@[elab_as_elim]
theorem Stmt.induction {motive : Stmt → Prop} (declare : ∀ name type, motive (.declare name type))
    (define : ∀ name value, motive (.define name value))
    (assign : ∀ target value, motive (.assign target value))
    (branch : ∀ init condition body, (∀ s ∈ init, motive s) → (∀ s ∈ body, motive s) →
      motive (.branch init condition body))
    (loop : ∀ counter bound body, (∀ s ∈ body, motive s) → motive (.loop counter bound body))
    (s : Stmt) : motive s := by
  apply Stmt.rec (motive_1 := motive) (motive_2 := fun init => ∀ s ∈ init, motive s)
    (motive_3 := fun body => ∀ s ∈ body, motive s) <;> simp_all

end Unmarshal
