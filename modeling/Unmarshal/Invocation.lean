import Unmarshal.Command

/-!
# Invocations

The arguments of the program: a command, the path of a manifest, and the options of the command,
which may stand before or after the path.
-/
namespace Unmarshal

/-- What the program is asked to do with the manifest at a path. -/
inductive Invocation where
  | gen (path : String) (only : Option String) (format : Command.Format)
  | check (path : String)
deriving DecidableEq, Repr

namespace Invocation

def path : Invocation → String
  | .gen path _ _ | .check path => path

/-- What is asked for, given what the file at the path holds. -/
def outcome (content : FileContent) : Invocation → Outcome
  | .gen path only format => Command.gen path only format content
  | .check path => Command.check path content

/-- The options and the path of an invocation, as far as they are known. -/
structure Switches where
  path : Option String := none
  only : Option String := none
  json : Bool := false
deriving DecidableEq, Repr

/-- The name in an option that carries it behind an equals sign. -/
def functionName? (arg : String) : Option String :=
  let flag := "--function=".toList
  if flag.isPrefixOf arg.toList then some (String.ofList (arg.toList.drop flag.length)) else none

/-- Takes the arguments after the command in order. Pictures are never coloured, so the option that
asks for that changes nothing. -/
def Switches.take (gen : Bool) : List String → Switches → Option Switches
  | [], options => some options
  | "--no-color" :: rest, options => take gen rest options
  | "--json" :: rest, options => if gen then take gen rest { options with json := true } else none
  | ["--function"], _ => none
  | "--function" :: name :: rest, options =>
    if gen then take gen rest { options with only := some name } else none
  | arg :: rest, options =>
    match functionName? arg with
    | some name => if gen then take gen rest { options with only := some name } else none
    | none =>
      if arg.startsWith "-" || options.path.isSome then none
      else take gen rest { options with path := some arg }

def ofArguments? : List String → Option Invocation
  | "gen" :: rest => do
    let options ← Switches.take true rest {}
    let path ← options.path
    some (.gen path options.only (if options.json then .json else .text))
  | "check" :: rest => do
    let options ← Switches.take false rest {}
    let path ← options.path
    some (.check path)
  | _ => none

def usage : String :=
  "Usage: gen <MANIFEST> [--function <NAME>] [--json] [--no-color]\n" ++
  "       check <MANIFEST> [--no-color]\n"

end Invocation

end Unmarshal
