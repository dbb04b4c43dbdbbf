import FilterClause.CommandLine.Run

/-!
# The program

Reads the arguments, the environment and the input, prints what the run reports, and exits with 0 on
success, 1 if the run fails and 2 if the arguments are refused.
-/

namespace FilterClause.CommandLine

/-- Everything that a stream still holds. -/
partial def readStream (stream : IO.FS.Stream) (content : ByteArray) : IO ByteArray := do
  let chunk ← stream.read 65536
  if chunk.isEmpty then return content else readStream stream (content ++ chunk)

/-- The bytes of a source, if they can be read. -/
def readSource (source : Source) : IO (Option ByteArray) := do
  try
    match source with
    | .standardInput => return some (← readStream (← IO.getStdin) ByteArray.empty)
    | .file path => return some (← IO.FS.readBinFile path)
  catch _ => return none

def printReport (report : Report) : IO UInt32 := do
  for entry in report.log do
    IO.eprintln entry.text
  match report.output with
  | .ok text => IO.print text
  | .error failure =>
    IO.eprintln ("Error: " ++ failure.message)
    match failure.cause? with
    | some cause => IO.eprintln ("\nCaused by:\n    " ++ cause.message)
    | none => pure ()
  return report.exitCode.toUInt32

end FilterClause.CommandLine

open FilterClause FilterClause.CommandLine

def main (arguments : List String) : IO UInt32 := do
  match parse arguments (← IO.getEnv "FILTER_SQL_PLACEHOLDER") with
  | .error error =>
    IO.eprintln ("error: " ++ error.message)
    return 2
  | .ok .help =>
    IO.print helpText
    return 0
  | .ok .version =>
    IO.print versionText
    return 0
  | .ok (.run settings) => printReport (settings.run (← readSource settings.source))
