import Unmarshal.Proofs.DryRun
import Unmarshal.Proofs.Lowering

/-!
# Output modes

Bindings are printed as text or as JSON, for all functions of a manifest or for those of a name.
Whatever the mode, the functions are bound one after the other: each prints its binding or its
error, and neither depends on how many have failed before it. Picking the functions of a name is
leaving out the others from the manifest.
-/
namespace Unmarshal

/-! ## The functions of a name -/

/-- The manifest with no other functions than those of the name. -/
def Manifest.onlyNamed (manifest : Manifest) (name : String) : Manifest :=
  { manifest with functions := manifest.functions.filter fun function => function.name == name }

/-- The project with no other functions than those of the name. -/
def Project.onlyNamed (project : Project) (name : String) : Project :=
  { project with signatures := project.signatures.filter fun signature => signature.name == name }

/-- The text that a file holds is the manifest. -/
def FileContent.Decodes (content : FileContent) (manifest : Manifest) : Prop :=
  ∃ text, content = .text text ∧ Manifest.ofToml? text = some manifest

section

variable {content : FileContent} {manifest : Manifest} {project : Project}

theorem FileContent.Decodes.holds (h : content.Decodes manifest)
    (hlower : manifest.lower = .ok project) : content.Holds project := by
  obtain ⟨text, hcontent, htext⟩ := h
  exact ⟨text, manifest, hcontent, htext, hlower⟩

/-- The functions of a project are those of its manifest, in order. -/
theorem Manifest.names_of_lower (h : manifest.lower = .ok project) :
    project.signatures.map Signature.name = manifest.functions.map FunctionDecl.name := by
  obtain ⟨-, -, -, hfunctions⟩ := lower_eq_ok_iff.mp h
  rw [← List.forall₂_eq_eq_eq, List.forall₂_map_left_iff, List.forall₂_map_right_iff]
  exact (hfunctions.imp fun _ _ hdeclares => hdeclares.1).flip

/-- Leaving out functions before a manifest is lowered or after it is the same. -/
theorem Manifest.lower_onlyNamed (h : manifest.lower = .ok project) (name : String) :
    (manifest.onlyNamed name).lower = .ok (project.onlyNamed name) := by
  obtain ⟨hname, hoptions, haliases, hfunctions⟩ := lower_eq_ok_iff.mp h
  refine lower_eq_ok_iff.mpr ⟨hname, hoptions, haliases, List.rel_filter ?_ hfunctions⟩
  intro function signature hdeclares
  show (function.name == name) = true ↔ (signature.name == name) = true
  rw [hdeclares.1]

theorem Manifest.onlyNamed_eq_nil_iff (h : manifest.lower = .ok project) (name : String) :
    (manifest.onlyNamed name).functions = [] ↔ (project.onlyNamed name).signatures = [] := by
  have hnames := names_of_lower (lower_onlyNamed h name)
  rw [← List.map_eq_nil_iff (f := FunctionDecl.name), ← hnames, List.map_eq_nil_iff]

end

/-- The functions that can be bound, each with its binding. -/
def Project.resolving (project : Project) (signatures : List Signature) :
    List (String × Binding) :=
  signatures.filterMap fun signature =>
    match project.table.bind project.options signature with
    | .ok binding => some (signature.name, binding)
    | .error _ => none

theorem AliasTable.name_of_bind {table : AliasTable} {options : Options} {signature : Signature}
    {binding : Binding} (h : table.bind options signature = .ok binding) :
    binding.name = signature.name := by
  rw [bind] at h
  cases hlayouts : table.layoutParams 0 signature.params with
  | error e =>
    rw [hlayouts] at h
    cases h
  | ok layouts =>
    rw [hlayouts] at h
    cases h
    rfl

/-- A binding is printed under the name of its function. -/
theorem Project.map_bound {α : Type} (project : Project) (signatures : List Signature)
    (f : String → Binding → α) :
    (project.bound signatures).map (fun binding => f binding.name binding) =
      (project.resolving signatures).map fun (name, binding) => f name binding := by
  simp only [bound, resolving, List.map_filterMap]
  apply List.filterMap_congr
  intro signature _
  cases hbind : project.table.bind project.options signature with
  | ok binding => simp [Except.toOption, AliasTable.name_of_bind hbind]
  | error e => rfl

namespace Command

/-! ## One function after the other -/

/-- What has been printed so far, whether no binding has been, and how many functions have failed. -/
structure Printout where
  stdout : String
  stderr : String
  first : Bool
  failed : Nat

namespace Printout

def start : Printout := ⟨"", "", true, 0⟩

/-- A block has an empty line in front of it unless it is the first. -/
def chunk (format : Format) (binding : Binding) (printout : Printout) : String :=
  match format with
  | .text => (if printout.first then "" else "\n") ++ block binding
  | .json => (bindingJson binding).compact ++ "\n"

/-- Prints the binding of a function, or its error. -/
def step (format : Format) (printout : Printout) (bound : Bound) : Printout :=
  match bound.result with
  | .ok binding =>
    { printout with stdout := printout.stdout ++ printout.chunk format binding, first := false }
  | .error _ =>
    { printout with
      stderr := printout.stderr ++ failureText format bound, failed := printout.failed + 1 }

/-- The end of a command that has bound `total` functions. -/
def outcome (total : Nat) (printout : Printout) : Outcome :=
  if printout.failed = 0 then ⟨0, printout.stdout, printout.stderr⟩
  else ⟨1, printout.stdout, printout.stderr ++
    errorLine (toString printout.failed ++ " of " ++ toString total ++ " function(s) failed")⟩

/-- What has been printed of the functions bound so far. -/
structure Shows (format : Format) (bounds : List Bound) (printout : Printout) : Prop where
  stdout : printout.stdout = printed format (bindings bounds)
  stderr : printout.stderr = String.join (bounds.map (failureText format))
  first : printout.first = (bindings bounds).isEmpty
  failed : printout.failed = failedCount bounds

section

variable {format : Format} {bounds : List Bound} {printout : Printout}

theorem shows_start (format : Format) : start.Shows format [] := by
  refine ⟨?_, rfl, rfl, rfl⟩
  cases format <;> rfl

/-- A binding is printed behind those in front of it, wherever functions have failed. -/
theorem Shows.printed_chunk (h : printout.Shows format bounds) (binding : Binding) :
    printout.stdout ++ printout.chunk format binding =
      printed format (bindings bounds ++ [binding]) := by
  rw [h.stdout]
  cases format with
  | json => simp [printed, chunk, unlines, String.join_append]
  | text =>
    simp only [printed, chunk, h.first, List.map_append, List.map_cons, List.map_nil]
    cases hbindings : bindings bounds with
    | nil => simp
    | cons first others =>
      rw [String.intercalate_append_of_ne_nil (by simp) (by simp)]
      simp [String.append_assoc]

theorem Shows.step (h : printout.Shows format bounds) (bound : Bound) :
    (printout.step format bound).Shows format (bounds ++ [bound]) := by
  obtain ⟨function, result⟩ := bound
  cases result with
  | ok binding =>
    have hbindings : bindings (bounds ++ [⟨function, .ok binding⟩]) =
        bindings bounds ++ [binding] := by
      simp [bindings, Except.toOption]
    refine ⟨?_, ?_, ?_, ?_⟩
    · rw [hbindings]
      exact h.printed_chunk binding
    · simp [Printout.step, h.stderr, failureText, String.join_append]
    · simp [Printout.step, hbindings]
    · simp [Printout.step, h.failed, failedCount, Bound.failed]
  | error e =>
    have hbindings : bindings (bounds ++ [⟨function, .error e⟩]) = bindings bounds := by
      simp [bindings, Except.toOption]
    refine ⟨?_, ?_, ?_, ?_⟩
    · rw [hbindings]
      exact h.stdout
    · simp [Printout.step, h.stderr, String.join_append]
    · rw [hbindings]
      exact h.first
    · simp [Printout.step, h.failed, failedCount, Bound.failed]

theorem Shows.run (h : printout.Shows format bounds) (rest : List Bound) :
    (rest.foldl (Printout.step format) printout).Shows format (bounds ++ rest) := by
  induction rest generalizing bounds printout with
  | nil => rwa [List.append_nil]
  | cons bound rest ih =>
    rw [List.append_cons]
    exact ih (h.step bound)

end

end Printout

/-- Functions are bound and printed one after the other. -/
theorem generate_eq_run (format : Format) (project : Project) (signatures : List Signature) :
    generate format project signatures =
      ((boundFunctions project signatures).foldl (Printout.step format) Printout.start).outcome
        signatures.length := by
  have hrun := (Printout.shows_start format).run (boundFunctions project signatures)
  rw [List.nil_append] at hrun
  have hlength : (boundFunctions project signatures).length = signatures.length :=
    List.length_map ..
  rw [generate, exitCode, failureSummary, hlength, Printout.outcome, hrun.failed, hrun.stdout,
    hrun.stderr, join_failureText, failedCount_boundFunctions]
  by_cases hfailures : project.failures signatures = []
  · simp [hfailures]
  · simp [hfailures]

/-! ## Modes -/

/-- What is printed of the functions that can be bound. -/
theorem printed_bound (project : Project) (signatures : List Signature) :
    printed .text (project.bound signatures) =
        "\n".intercalate ((project.resolving signatures).map fun (name, binding) =>
          "// " ++ name ++ "\n" ++ binding.render ++ "\n") ∧
      printed .json (project.bound signatures) =
        unlines ((project.resolving signatures).map fun (name, binding) =>
          (Json.obj [("function", .str name), ("binding", binding.toJson),
            ("go", .str binding.render)]).compact) :=
  ⟨congrArg (String.intercalate "\n") (project.map_bound signatures fun name binding =>
      "// " ++ name ++ "\n" ++ binding.render ++ "\n"),
    congrArg unlines (project.map_bound signatures fun name binding =>
      (Json.obj [("function", .str name), ("binding", binding.toJson),
        ("go", .str binding.render)]).compact)⟩

section

variable {content : FileContent} {project : Project} (path : String) (format : Format)

theorem gen_all (h : content.Holds project) :
    gen path none format content = generate format project project.signatures := by
  rw [gen, load_eq_ok_iff.mpr h]

theorem gen_of_none_named (h : content.Holds project) {name : String}
    (hnone : (project.onlyNamed name).signatures = []) :
    gen path (some name) format content =
      ⟨1, "", errorLine ("no function named '" ++ name ++ "' in '" ++ path ++ "'")⟩ := by
  rw [gen, load_eq_ok_iff.mpr h]
  simp only
  split
  · rfl
  · next hsome => exact absurd hnone hsome

theorem gen_of_some_named (h : content.Holds project) {name : String}
    (hsome : (project.onlyNamed name).signatures ≠ []) :
    gen path (some name) format content =
      generate format (project.onlyNamed name) (project.onlyNamed name).signatures := by
  rw [gen, load_eq_ok_iff.mpr h]
  simp only
  split
  · next hnone => exact absurd hnone hsome
  · rfl

end

/-- A manifest with two functions of one name, and one between them that cannot be bound. -/
def repeatedName : Manifest :=
  ⟨⟨"p", none⟩, {}, [], [⟨"F", [⟨"x", "int"⟩]⟩, ⟨"G", [⟨"x", "T"⟩]⟩, ⟨"F", []⟩]⟩

end Command

end Unmarshal
