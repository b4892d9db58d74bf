import PegCompiler.CommandLine

/-!
# The program

Runs the command line on the files, arguments and environment of the process.
-/

namespace PegCompiler.CommandLine

/-- The text of a file, `none` if it cannot be read. -/
def readTextFile (path : String) : IO (Option String) := do
  try
    return some (← IO.FS.readFile path)
  catch _ =>
    return none

end PegCompiler.CommandLine

def main (args : List String) : IO UInt32 := do
  let level ← IO.getEnv "RUST_LOG"
  let result ← PegCompiler.CommandLine.run PegCompiler.CommandLine.readTextFile level args
  IO.print result.stdout
  IO.eprint result.stderr
  return result.code
