import Mixin.Command.Arguments
import Mixin.FileTree

/-!
# Executions

What a run of the program shows: its exit code and what it writes to the two streams. Jobs can be
run on files in memory.
-/

namespace Mixin

structure Execution where
  exitCode : Nat
  stdout : String := ""
  /-- The lines on standard error. -/
  stderr : List String := []
  deriving DecidableEq, Repr, Inhabited

namespace Execution

def ofReport (r : Job.Report) : Execution where
  exitCode := if r.result = .done then 0 else 1
  stdout := r.stdout
  stderr := r.notices.map Notice.render

def ofUnanalyzed (u : Unanalyzed) : Execution where
  exitCode := 101
  stderr := [u.message]

def versionText (path : List Command) : String :=
  String.intercalate "-" (path.map Command.name) ++ " " ++
    ((path.getLast?.map Command.version).getD "")

def ofVersion (path : List Command) : Execution where
  exitCode := 0
  stdout := versionText path ++ "\n"

def ofHelp (c : Command) : Execution where
  exitCode := 0
  stdout := c.usage

def ofUsageError (e : UsageError) : Execution where
  exitCode := 1
  stderr := [e.message]

end Execution

def Job.runOn (job : Job) (files : FileTree) : Except Unanalyzed (Job.Report × FileTree) := do
  let plan ← job.plan (files.read? job.source)
  match plan.output with
  | none => return (plan.finish job true, files)
  | some (path, text) =>
    match files.write? path text.toUTF8 with
    | some after => return (plan.finish job true, after)
    | none => return (plan.finish job false, files)

def Request.runOn (files : FileTree) : Request → Execution × FileTree
  | .perform job =>
    match job.runOn files with
    | .ok (report, after) => (.ofReport report, after)
    | .error u => (.ofUnanalyzed u, files)
  | .version path => (.ofVersion path, files)
  | .help c => (.ofHelp c, files)
  | .refuse e => (.ofUsageError e, files)

end Mixin
