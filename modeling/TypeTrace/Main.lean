import TypeTrace.Cli

/-!
# The program

Reads the files that the arguments name, and prints what the command line gives for them.
-/

namespace TypeTrace

/-- The content of a file, or why it cannot be read. -/
def readText (path : String) : IO (Except Cli.ReadError String) := do
  try
    return .ok (← IO.FS.readFile path)
  catch
    | .noFileOrDirectory .. => return .error .notFound
    | e => return .error (.other (toString e))

end TypeTrace

open TypeTrace

/-- The program. -/
def main (args : List String) : IO UInt32 := do
  let files ← (Cli.paths args).mapM fun path => return (path, ← readText path)
  let output := Cli.run (fun path => (files.lookup path).getD (.error .notFound)) args
  (← IO.getStdout).putStr output.stdout
  (← IO.getStderr).putStr output.stderr
  return output.exit.toUInt32
