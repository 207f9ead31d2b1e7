import Unmarshal.AliasTable
import Unmarshal.Manifest.Basic
import Unmarshal.Report

/-!
# Lowering a manifest

Every type text of a manifest is read. If all can be read they make a project; otherwise every
fault is reported, those of aliases before those of parameters.
-/
namespace Unmarshal

/-- A manifest with every type read into a shape. -/
structure Project where
  name : String
  options : Options
  aliases : List (String × Shape)
  signatures : List Signature
deriving Repr

def Project.table (project : Project) : AliasTable := .ofList project.aliases

/-- Values, or all the faults that stand in their way. -/
abbrev Checked (α : Type) := Except (List Fault) α

namespace Checked

/-- Both of two values; the faults of both are kept. -/
def both {α β : Type} : Checked α → Checked β → Checked (α × β)
  | .ok a, .ok b => .ok (a, b)
  | .ok _, .error faults => .error faults
  | .error faults, .ok _ => .error faults
  | .error faults, .error more => .error (faults ++ more)

/-- The value for every item of a list; the faults of all items are kept, in order. -/
def all {α β : Type} (check : α → Checked β) : List α → Checked (List β)
  | [] => .ok []
  | a :: rest => ((check a).both (all check rest)).map fun (b, bs) => b :: bs

end Checked

/-- Reads a type text declared at an origin. -/
def Origin.readType (origin : Origin) (text : String) : Checked Shape :=
  match TypeText.read text with
  | .ok shape => .ok shape
  | .error error => .error [⟨origin, text, error⟩]

namespace Manifest

def lowerAlias (entry : String × String) : Checked (String × Shape) :=
  ((Origin.alias entry.1).readType entry.2).map fun shape => (entry.1, shape)

def lowerFunction (function : FunctionDecl) : Checked Signature :=
  let readParam := fun ((param, index) : ParamDecl × Nat) =>
    ((Origin.param function.name index param.name).readType param.type).map fun shape =>
      (⟨param.name, shape⟩ : Param)
  (Checked.all readParam function.params.zipIdx).map fun params => ⟨function.name, params⟩

def lower (manifest : Manifest) : Checked Project :=
  ((Checked.all lowerAlias manifest.types).both
    (Checked.all lowerFunction manifest.functions)).map fun (aliases, signatures) =>
      ⟨manifest.package.name, manifest.options, aliases, signatures⟩

end Manifest

end Unmarshal
