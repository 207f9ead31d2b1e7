import Unmarshal.Names

/-!
# Manifests

A package with its naming options, its aliases and its functions, in which every type is still a
text.
-/
namespace Unmarshal.Manifest

structure Package where
  name : String
  description : Option String
deriving DecidableEq, Repr

/-- The names that the generated code is to use, where they are set. -/
structure Naming where
  args : Option String := none
  runtime : Option String := none
  kindVar : Option String := none
deriving DecidableEq, Repr

structure ParamDecl where
  name : String
  type : String
deriving DecidableEq, Repr

structure FunctionDecl where
  name : String
  params : List ParamDecl
deriving DecidableEq, Repr

end Unmarshal.Manifest

namespace Unmarshal

/-- A manifest. The aliases are in the order of their names. -/
structure Manifest where
  package : Manifest.Package
  naming : Manifest.Naming
  types : List (String × String)
  functions : List Manifest.FunctionDecl
deriving DecidableEq, Repr

/-- The names in effect: a name that is not set keeps its default. -/
def Manifest.options (manifest : Manifest) : Options :=
  let unset : Options := {}
  ⟨manifest.naming.args.getD unset.args, manifest.naming.runtime.getD unset.runtime,
    manifest.naming.kindVar.getD unset.kindVar⟩

end Unmarshal
