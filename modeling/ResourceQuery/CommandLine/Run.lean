import ResourceQuery.Catalog.Json
import ResourceQuery.Catalog.Sample
import ResourceQuery.CommandLine.Arguments
import ResourceQuery.Config.Json
import ResourceQuery.Json.Reader
import ResourceQuery.Target.Json

set_option autoImplicit false

/-!
# The command line

`rqlc [options] -c COLLECTION QUERY` compiles a query string and prints the
result as JSON.  The work is pure: the files that the options name are handed in
as they were found.
-/

namespace ResourceQuery.CommandLine

/-- What a run of the program leaves. -/
structure Outcome where
  exit : Nat
  stdout : String
  stderr : String
  deriving DecidableEq, Repr, Inhabited

/-- Decodes a file that an option names.  Without the option the standard value
is taken; `none` as a text is a file that could not be read. -/
def load {α : Type} (standard : α) (decode? : Json → Option α)
    (files : String → Option String) : Option String → Except String α
  | none => .ok standard
  | some path =>
    match files path with
    | none => .error s!"{path}: No such file or directory (os error 2)"
    | some text =>
      match (Json.parse? text).bind decode? with
      | some value => .ok value
      | none => .error s!"{path}: not of the expected form"

/-- Compiles the query of a command. -/
def compile (command : Command) (files : String → Option String) : Except String Compiled := do
  let catalog ← load Catalog.Sample.northwind Catalog.decode? files command.catalog
  let config ← load Config.standard Config.decode? files command.config
  let config := if command.numbered then config.withMarkers .numbered else config
  let collection ← match catalog.collection command.collection with
    | .ok collection => pure collection
    | .error fault => throw fault.message
  let compiled := do
    let query ← Query.ofString collection command.query
    command.target.compile catalog config query
  match compiled with
  | .ok compiled => return compiled
  | .error fault => throw s!"error {fault.status}: {fault.message}"

/-- Carries out a command. -/
def execute (command : Command) (files : String → Option String) : Outcome :=
  match compile command files with
  | .ok compiled =>
    let json := compiled.encode
    ⟨0, (if command.compact then json.compact else json.pretty 0) ++ "\n", ""⟩
  | .error message => ⟨1, "", message ++ "\n"⟩

/-- The name and version of the program. -/
def version : String := "rqlc 0.1.0"

/-- How the program is called. -/
def usage : String :=
  "Usage: rqlc [OPTIONS] --collection <COLLECTION> <QUERY>"

/-- Runs the program on its arguments. -/
def run (args : List String) (files : String → Option String) : Outcome :=
  match parse args with
  | .ok command => execute command files
  | .error .version => ⟨0, version ++ "\n", ""⟩
  | .error .help => ⟨0, usage ++ "\n", ""⟩
  | .error .usage => ⟨2, "", usage ++ "\n"⟩

end ResourceQuery.CommandLine
