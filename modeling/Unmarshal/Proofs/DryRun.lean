import Unmarshal.Command

/-!
# Dry runs

Checking a project is generating its bindings without printing them: both commands end alike and
print the same errors, whatever the file of the manifest holds. What a command prints is read off
the functions of the project one by one, in the order in which they are declared.
-/
namespace Unmarshal

/-- A file holds a manifest whose types can all be read. -/
def FileContent.Holds (content : FileContent) (project : Project) : Prop :=
  ∃ text manifest, content = .text text ∧ Manifest.ofToml? text = some manifest ∧
    manifest.lower = .ok project

namespace Project

variable (project : Project)

/-- Every function of a project can be bound. -/
def Resolves : Prop :=
  ∀ signature ∈ project.signatures,
    ∃ binding, project.table.bind project.options signature = .ok binding

/-- The bindings of the functions that can be bound. -/
def bound (signatures : List Signature) : List Binding :=
  signatures.filterMap fun signature =>
    (project.table.bind project.options signature).toOption

/-- The functions that cannot be bound, each with the error that stops it. -/
def failures (signatures : List Signature) : List (String × ResolveError) :=
  signatures.filterMap fun signature =>
    match project.table.bind project.options signature with
    | .ok _ => none
    | .error e => some (signature.name, e)

variable {project} {signatures : List Signature}

theorem failures_eq_nil_iff :
    project.failures signatures = [] ↔ ∀ signature ∈ signatures,
      ∃ binding, project.table.bind project.options signature = .ok binding := by
  rw [failures, List.filterMap_eq_nil_iff]
  refine forall_congr' fun signature => forall_congr' fun _ => ?_
  cases project.table.bind project.options signature <;> simp

theorem bindAll_eq_map_bound (h : project.failures signatures = []) :
    project.table.bindAll project.options signatures =
      (project.bound signatures).map .ok := by
  rw [failures_eq_nil_iff] at h
  induction signatures with
  | nil => rfl
  | cons signature rest ih =>
    obtain ⟨⟨binding, hbind⟩, hrest⟩ := List.forall_mem_cons.mp h
    have hothers := ih hrest
    simp only [AliasTable.bindAll, bound] at hothers ⊢
    simp [hbind, hothers, Except.toOption]

end Project

namespace Command

/-- The line that tells which function failed and why. -/
def failureLine (failure : String × ResolveError) : String :=
  errorLine ("function `" ++ failure.1 ++ "`: " ++ failure.2.message)

/-- What is printed of a function that failed. -/
def failureReport (format : Format) (failure : String × ResolveError) : String :=
  match format with
  | .text => failureLine failure
  | .json => (failure.2.report failure.1).compact ++ "\n"

section

variable {path : String} {format : Format} {content : FileContent} {project : Project}
  {signatures : List Signature}

theorem load_eq_ok_iff : load path format content = .ok project ↔ content.Holds project := by
  unfold load FileContent.Holds
  cases content with
  | text text =>
    cases hmanifest : Manifest.ofToml? text with
    | none => simp [hmanifest]
    | some manifest => cases hlower : manifest.lower <;> simp [hmanifest, hlower]
  | _ => simp

theorem bindings_boundFunctions :
    bindings (boundFunctions project signatures) = project.bound signatures := by
  rw [bindings, boundFunctions, List.filterMap_map]
  rfl

theorem failedCount_boundFunctions :
    failedCount (boundFunctions project signatures) = (project.failures signatures).length := by
  induction signatures with
  | nil => rfl
  | cons signature rest ih =>
    simp only [failedCount, boundFunctions, Project.failures, List.map_cons, List.countP_cons,
      List.filterMap_cons, Bound.failed] at ih ⊢
    cases project.table.bind project.options signature <;> simp [ih]

theorem join_failureText :
    String.join ((boundFunctions project signatures).map (failureText format)) =
      String.join ((project.failures signatures).map (failureReport format)) := by
  induction signatures with
  | nil => rfl
  | cons signature rest ih =>
    simp only [boundFunctions, Project.failures, List.map_cons, List.filterMap_cons, failureText,
      String.join_cons] at ih ⊢
    cases project.table.bind project.options signature with
    | ok binding => simpa using ih
    | error e =>
      rw [List.map_cons, String.join_cons, ih]
      cases format <;> rfl

/-- The errors of a command, in either form. -/
theorem failureSummary_eq (format : Format) (project : Project) (signatures : List Signature) :
    failureSummary format (boundFunctions project signatures) =
      if project.failures signatures = [] then ""
      else String.join ((project.failures signatures).map (failureReport format)) ++
        errorLine (toString (project.failures signatures).length ++ " of " ++
          toString signatures.length ++ " function(s) failed") := by
  have hlength : (boundFunctions project signatures).length = signatures.length :=
    List.length_map ..
  rw [failureSummary, failedCount_boundFunctions, join_failureText, hlength]
  simp only [List.length_eq_zero_iff]

end

/-- The last lines of a command of which functions failed. -/
def failureLines (project : Project) (signatures : List Signature) : String :=
  let failures := project.failures signatures
  String.join (failures.map failureLine) ++
    errorLine (toString failures.length ++ " of " ++ toString signatures.length ++
      " function(s) failed")

theorem failureSummary_boundFunctions (project : Project) (signatures : List Signature) :
    failureSummary .text (boundFunctions project signatures) =
      if project.failures signatures = [] then "" else failureLines project signatures :=
  failureSummary_eq .text project signatures

theorem exitCode_boundFunctions (project : Project) (signatures : List Signature) :
    exitCode (boundFunctions project signatures) =
      if project.failures signatures = [] then 0 else 1 := by
  rw [exitCode, failedCount_boundFunctions]
  simp only [List.length_eq_zero_iff]

theorem generate_eq (format : Format) (project : Project) (signatures : List Signature) :
    generate format project signatures =
      ⟨if project.failures signatures = [] then 0 else 1,
        printed format (project.bound signatures),
        if project.failures signatures = [] then ""
        else String.join ((project.failures signatures).map (failureReport format)) ++
          errorLine (toString (project.failures signatures).length ++ " of " ++
            toString signatures.length ++ " function(s) failed")⟩ := by
  rw [generate, exitCode_boundFunctions, bindings_boundFunctions, failureSummary_eq]

theorem generate_text (project : Project) (signatures : List Signature) :
    generate .text project signatures =
      ⟨if project.failures signatures = [] then 0 else 1,
        "\n".intercalate ((project.bound signatures).map block),
        if project.failures signatures = [] then "" else failureLines project signatures⟩ :=
  generate_eq .text project signatures

theorem check_of_load {path : String} {content : FileContent} {project : Project}
    (h : load path .text content = .ok project) :
    check path content =
      ⟨if project.failures project.signatures = [] then 0 else 1, "",
        if project.failures project.signatures = [] then
          "  Checked: " ++ project.name ++ " (" ++ toString project.signatures.length ++
            " function(s))\n"
        else failureLines project project.signatures⟩ := by
  have hlength : (boundFunctions project project.signatures).length = project.signatures.length :=
    List.length_map ..
  rw [check, h]
  simp only [exitCode_boundFunctions, failedCount_boundFunctions, hlength,
    List.length_eq_zero_iff]
  by_cases hfailures : project.failures project.signatures = []
  · simp [hfailures]
  · simp [hfailures, failureSummary_boundFunctions]

end Command

end Unmarshal
