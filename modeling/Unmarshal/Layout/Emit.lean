import Unmarshal.Code.Basic
import Unmarshal.Layout.Basic
import Unmarshal.Names

/-!
# Code for a layout

A layout is filled, into a place that exists already, or bound, to a value that may need a local
of its own. Either way the statements run in order and every local they declare was claimed.
Names grow with the way to a place: a field adds its name, and elements, pointees, lengths and
counters add a suffix for their role.
-/
namespace Unmarshal

def ScalarAccess.accessor : ScalarAccess → Accessor
  | .bool => .bool
  | .string => .string
  | .int => .int
  | .float => .float

/-- The value of a scalar, read from a dynamic value. -/
def Scalar.read (scalar : Scalar) (source : Expr) : Expr :=
  let value := source.ask scalar.access.accessor
  match scalar.cast? with
  | some type => .cast type value
  | none => value

namespace Options

/-- Whether the kind that a guard has bound is the given one. -/
def isKind (options : Options) (kind : AbsentKind) : Expr :=
  .binary .eq (.ident options.kindVar) (.absent options.runtime kind)

/-- Runs a body only if a dynamic value is neither undefined nor null. The two tests are joined
before they are negated. -/
def whenPresent (options : Options) (source : Expr) (body : List Stmt) : Stmt :=
  .branch (some (.define options.kindVar (source.ask .type)))
    (.not (.binary .or (options.isKind .undefined) (options.isKind .null))) body

end Options

/-- Statements, and the value that can be used after them. -/
structure Resolution where
  code : List Stmt
  value : Expr
deriving Repr

namespace Layout

mutual

/-- The statements that write the converted value of `source` into `target`, for locals named
after `base`. A pointee is allocated before it is filled, and a slice before its elements are; an
array and a record exist with the place they are in. -/
def fill (options : Options) (base : String) (source target : Expr) :
    Layout → Names → List Stmt × Names
  | .scalar _ type, names => ([.assign target (type.read source)], names)
  | .optional _ pointee, names =>
    let inner := fill options (base ++ "Elt") source (.deref target) pointee names
    ([options.whenPresent source (.assign target (.new pointee.declared) :: inner.1)], inner.2)
  | .sequence _ elem (.fixed length), names =>
    let counter := names.claim (base ++ "Idx")
    let inner := fill options (base ++ "Elt") (source.element counter.1)
      (.index target (.ident counter.1)) elem counter.2
    ([.loop counter.1 (.int length.toNat) inner.1], inner.2)
  | .sequence declared elem .dynamic, names =>
    let length := names.claim (base ++ "Len")
    let counter := length.2.claim (base ++ "Idx")
    let inner := fill options (base ++ "Elt") (source.element counter.1)
      (.index target (.ident counter.1)) elem counter.2
    ([.define length.1 (source.ask .length), .assign target (.make declared (.ident length.1)),
      .loop counter.1 (.ident length.1) inner.1], inner.2)
  | .record _ fields, names => fillFields options base source target fields names

def fillFields (options : Options) (base : String) (source target : Expr) :
    List (Field Layout) → Names → List Stmt × Names
  | [], names => ([], names)
  | ⟨name, type⟩ :: fields, names =>
    let first := fill options (base ++ name) (source.property name) (.field target name) type names
    let others := fillFields options base source target fields first.2
    (first.1 ++ others.1, others.2)

end

/-- The statements that convert `source`, and the converted value. A scalar needs no local; all
else is stored in one, whose name comes from `base`. -/
def bind (options : Options) (base : String) (source : Expr) (layout : Layout) (names : Names) :
    Resolution × Names :=
  match layout with
  | .scalar _ type => (⟨[], type.read source⟩, names)
  | .optional declared _ | .sequence declared _ (.fixed _) =>
    let place := names.claim base
    let rest := layout.fill options place.1 source (.ident place.1) place.2
    (⟨.declare place.1 declared :: rest.1, .ident place.1⟩, rest.2)
  | .sequence declared elem .dynamic =>
    let place := names.claim base
    let length := place.2.claim (place.1 ++ "Len")
    let counter := length.2.claim (place.1 ++ "Idx")
    let inner := elem.fill options (place.1 ++ "Elt") (source.element counter.1)
      (.index (.ident place.1) (.ident counter.1)) counter.2
    (⟨[.define length.1 (source.ask .length),
      .define place.1 (.make declared (.ident length.1)),
      .loop counter.1 (.ident length.1) inner.1], .ident place.1⟩, inner.2)
  | .record declared _ =>
    let place := names.claim base
    let rest := layout.fill options place.1 source (.ident place.1) place.2
    (⟨.define place.1 (.composite declared) :: rest.1, .ident place.1⟩, rest.2)

/-- Fills a place if there is one, and binds otherwise. -/
def emit (options : Options) (base : String) (source : Expr) (target : Option Expr)
    (layout : Layout) (names : Names) : Resolution :=
  match target with
  | some place => ⟨(layout.fill options base source place names).1, place⟩
  | none => (layout.bind options base source names).1

end Layout

/-- Converts `source` as a value of a shape, into `target` if there is one. -/
def AliasTable.resolve (table : AliasTable) (options : Options) (base : String) (shape : Shape)
    (source : Expr) (target : Option Expr) : Except ResolveError Resolution :=
  match table.layout shape with
  | .ok layout => .ok (layout.emit options base source target (.reserved options))
  | .error e => .error e

end Unmarshal
