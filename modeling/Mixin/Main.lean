import Mixin.Command.Execution

/-!
# The program

Reads the arguments and the source file, writes the listing, and shows what there is to show.
-/

namespace Mixin

def Execution.present (e : Execution) : IO UInt32 := do
  IO.print e.stdout
  for line in e.stderr do
    IO.eprintln line
  return UInt32.ofNat e.exitCode

def readContent? (path : String) : IO (Option ByteArray) := do
  try
    return some (← IO.FS.readBinFile path)
  catch _ =>
    return none

/-- Writes a file and says whether that was possible. -/
def writeContent (path text : String) : IO Bool := do
  try
    IO.FS.writeFile path text
    return true
  catch _ =>
    return false

def Job.run (job : Job) : IO Execution := do
  match job.plan (← readContent? job.source) with
  | .error u => return .ofUnanalyzed u
  | .ok plan =>
    match plan.output with
    | none => return .ofReport (plan.finish job true)
    | some (path, text) => return .ofReport (plan.finish job (← writeContent path text))

def Request.run : Request → IO Execution
  | .perform job => job.run
  | .version path => return .ofVersion path
  | .help c => return .ofHelp c
  | .refuse e => return .ofUsageError e

end Mixin

def main (arguments : List String) : IO UInt32 := do
  (← (Mixin.Request.ofArguments arguments).run).present
