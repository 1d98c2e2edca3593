import ErlangLexer.CommandLine.Report

/-!
# The program

It reads the file that the command line names and prints the report on it.
-/

open ErlangLexer CommandLine

/-- The text of a file, or why there is none. -/
def readText (path : String) : IO (Except FileProblem String) := do
  try
    let bytes ← IO.FS.readBinFile path
    match String.fromUTF8? bytes with
    | some text => return .ok text
    | none => return .error .invalidEncoding
  catch
    | .noFileOrDirectory .. => return .error .notFound
    | .permissionDenied .. => return .error .permissionDenied
    | error => return .error (.unreadable (toString error))

def main (arguments : List String) : IO UInt32 := do
  let request := Request.ofArguments arguments
  let contents ← match request.path? with
    | some path => readText path
    | none => pure (.error .notFound)
  let report := request.report (← IO.getEnv featuresVariable) contents
  IO.print report.output
  IO.eprint report.errors
  return report.exit.toUInt32
