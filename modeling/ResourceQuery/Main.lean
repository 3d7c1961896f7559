import ResourceQuery.CommandLine.Run

set_option autoImplicit false

/-!
# The program

Reads the files that the options name and prints what `CommandLine.run` gives.
-/

namespace ResourceQuery.Main

open ResourceQuery.CommandLine

/-- A file's text, if it can be read. -/
def readFile? (path : String) : IO (Option String) := do
  try
    let text ← IO.FS.readFile path
    return some text
  catch _ => return none

/-- The files that a command names, with their texts. -/
def readFiles (paths : List String) : IO (List (String × Option String)) :=
  paths.mapM fun path => do
    let text ← readFile? path
    return (path, text)

/-- Runs the program. -/
def start (args : List String) : IO UInt32 := do
  let paths := match parse args with
    | .ok command => command.catalog.toList ++ command.config.toList
    | .error _ => []
  let files ← readFiles paths
  let outcome := run args fun path => (files.lookup path).join
  let out ← IO.getStdout
  out.putStr outcome.stdout
  out.flush
  let err ← IO.getStderr
  err.putStr outcome.stderr
  return outcome.exit.toUInt32

end ResourceQuery.Main

/-- The command-line program. -/
def main (args : List String) : IO UInt32 := ResourceQuery.Main.start args
