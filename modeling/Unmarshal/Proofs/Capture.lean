import Unmarshal.Binding
import Unmarshal.Proofs.Aliases

/-!
# Captured names

Code means some names to be those of the package it is written into: the argument list, the runtime
package, the function that is called, the builtins, and types. Such a name is captured where a
local of the same name is in scope. A local is in scope from the end of its declaration to the end
of its block; the header of a loop or of a branch has a block of its own around the body.
-/
namespace Unmarshal

namespace Expr

mutual

/-- The names that an expression means to be no locals. A list that is indexed by a number is the
argument list, since locals are indexed by counters. -/
def meant : Expr → List String
  | .ident _ | .int _ | .str _ => []
  | .access value _ args => meant value ++ allMeant args
  | .call (.ident callee) args => callee :: allMeant args
  | .call callee args => meant callee ++ allMeant args
  | .cast type value => type :: meant value
  | .field base _ => meant base
  | .index (.ident list) (.int _) => [list]
  | .index base position => meant base ++ meant position
  | .deref pointer => meant pointer
  | .not operand => meant operand
  | .binary _ left right => meant left ++ meant right
  | .absent package _ => [package]
  | .new type => "new" :: type.names
  | .make type length => "make" :: type.names ++ meant length
  | .composite type => type.names

def allMeant : List Expr → List String
  | [] => []
  | e :: es => meant e ++ allMeant es

end

@[simp] theorem meant_ask (source : Expr) (accessor : Accessor) :
    (source.ask accessor).meant = source.meant := by
  simp [ask, meant, allMeant]

@[simp] theorem meant_property (source : Expr) (name : String) :
    (source.property name).meant = source.meant := by
  simp [property, meant, allMeant]

@[simp] theorem meant_element (source : Expr) (counter : String) :
    (source.element counter).meant = source.meant := by
  simp [element, meant, allMeant]

end Expr

theorem Scalar.meant_read (type : Scalar) (source : Expr) :
    (type.read source).meant = type.cast?.toList ++ source.meant := by
  unfold Scalar.read
  cases type.cast? <;> simp [Expr.meant]

namespace Stmt

/-- The names, of those that are meant, that a local in scope captures. -/
def capturedIn (scope names : List String) : List String :=
  names.filter fun name => decide (name ∈ scope)

theorem mem_capturedIn {scope names : List String} {x : String} :
    x ∈ capturedIn scope names ↔ x ∈ names ∧ x ∈ scope := by
  simp [capturedIn]

/-- The local that a statement adds to its block. -/
def introduced : Stmt → List String
  | .declare name _ | .define name _ => [name]
  | _ => []

mutual

/-- The names that are captured in a statement, with the given locals in scope. -/
def captured (scope : List String) : Stmt → List String
  | .declare _ type => capturedIn scope type.names
  | .define _ value => capturedIn scope value.meant
  | .assign target value => capturedIn scope (target.meant ++ value.meant)
  | .branch none condition body =>
    capturedIn scope condition.meant ++ allCaptured scope body
  | .branch (some init) condition body =>
    captured scope init ++ capturedIn (init.introduced ++ scope) condition.meant ++
      allCaptured (init.introduced ++ scope) body
  | .loop counter bound body =>
    capturedIn (counter :: scope) bound.meant ++ allCaptured (counter :: scope) body

def allCaptured (scope : List String) : List Stmt → List String
  | [] => []
  | s :: rest => captured scope s ++ allCaptured (s.introduced ++ scope) rest

end

/-- The locals in scope after the statements of a block. -/
def scopeAfter (scope : List String) : List Stmt → List String
  | [] => scope
  | s :: rest => scopeAfter (s.introduced ++ scope) rest

theorem allCaptured_append (scope : List String) (first second : List Stmt) :
    allCaptured scope (first ++ second) =
      allCaptured scope first ++ allCaptured (scopeAfter scope first) second := by
  induction first generalizing scope with
  | nil => rfl
  | cons s rest ih => simp [allCaptured, scopeAfter, ih]

theorem scopeAfter_append (scope : List String) (first second : List Stmt) :
    scopeAfter scope (first ++ second) = scopeAfter (scopeAfter scope first) second := by
  induction first generalizing scope with
  | nil => rfl
  | cons s rest ih => simp [scopeAfter, ih]

end Stmt

/-- The names that are captured in a binding: in its statements, and in the call after them. -/
def Binding.captured (binding : Binding) : List String :=
  Stmt.allCaptured [] binding.arguments.code ++
    Stmt.capturedIn (Stmt.scopeAfter [] binding.arguments.code) binding.call.meant

end Unmarshal
