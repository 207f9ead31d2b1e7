import Unmarshal.Json.Basic
import Unmarshal.Manifest.Basic
import Unmarshal.Toml.Document

/-!
# Decoding a manifest

A manifest is decoded from a tree by its schema. Keys that the schema does not name are ignored at
every level but that of the aliases, where every key is one. Null stands for absence only at the
description and at the naming options.
-/
namespace Unmarshal

namespace Json

def entries? : Json → Option (List (String × Json))
  | .obj entries => some entries
  | _ => none

def items? : Json → Option (List Json)
  | .arr items => some items
  | _ => none

/-- A text, or none where null stands in its place. -/
def nullableText? : Json → Option (Option String)
  | .null => some none
  | .str s => some (some s)
  | _ => none

/-- The decoded value under a key that has to be there. -/
def required {α : Type} (key : String) (decode : Json → Option α)
    (entries : List (String × Json)) : Option α :=
  lookup key entries >>= decode

/-- The decoded value under a key, or a default where the key is missing. -/
def defaulted {α : Type} (key : String) (default : α) (decode : Json → Option α)
    (entries : List (String × Json)) : Option α :=
  match lookup key entries with
  | none => some default
  | some j => decode j

end Json

namespace Manifest

/-- The name of a package is required, its description is not. -/
def Package.ofJson? (j : Json) : Option Package := do
  let entries ← j.entries?
  let name ← Json.required "name" Json.text? entries
  let description ← Json.defaulted "description" none Json.nullableText? entries
  some ⟨name, description⟩

/-- All three names may be left out. -/
def Naming.ofJson? (j : Json) : Option Naming := do
  let entries ← j.entries?
  let args ← Json.defaulted "args" none Json.nullableText? entries
  let runtime ← Json.defaulted "runtime" none Json.nullableText? entries
  let kindVar ← Json.defaulted "kind-var" none Json.nullableText? entries
  some ⟨args, runtime, kindVar⟩

/-- The type of a parameter is required; a parameter without a name has the empty name. -/
def ParamDecl.ofJson? (j : Json) : Option ParamDecl := do
  let entries ← j.entries?
  let name ← Json.defaulted "name" "" Json.text? entries
  let type ← Json.required "type" Json.text? entries
  some ⟨name, type⟩

/-- A function without parameters may leave them out. -/
def FunctionDecl.ofJson? (j : Json) : Option FunctionDecl := do
  let entries ← j.entries?
  let name ← Json.required "name" Json.text? entries
  let params ← Json.defaulted "params" []
    (fun j => do (← j.items?).mapM ParamDecl.ofJson?) entries
  some ⟨name, params⟩

/-- The aliases of a table, every key of which is one, in the order of their names. -/
def typesOfJson? (j : Json) : Option (List (String × String)) := do
  let texts ← (← j.entries?).mapM fun entry => do some (entry.1, ← entry.2.text?)
  some (texts.mergeSort fun a b => decide (a.1 ≤ b.1))

end Manifest

def Manifest.ofJson? (j : Json) : Option Manifest := do
  let entries ← j.entries?
  let package ← Json.required "package" Manifest.Package.ofJson? entries
  let naming ← Json.defaulted "options" {} Manifest.Naming.ofJson? entries
  let types ← Json.defaulted "types" [] Manifest.typesOfJson? entries
  let functions ← Json.defaulted "function" []
    (fun j => do (← j.items?).mapM Manifest.FunctionDecl.ofJson?) entries
  some ⟨package, naming, types, functions⟩

def Manifest.ofToml? (text : String) : Option Manifest := Toml.read text >>= Manifest.ofJson?

end Unmarshal
