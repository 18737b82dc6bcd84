import Mixin.Compilation
import Mixin.Path
import Mixin.Tree.Outline

/-!
# Jobs

A job is what the program is asked to do with one source file: check it, build a listing from it, or
show its tokens or its syntax tree. Once the file has been read, `Job.plan` says all that there is
to print and which file to write. What comes of the job depends then only on whether that file could
be written.
-/

namespace Mixin

inductive Target where
  /-- Look for errors. -/
  | check
  /-- Write a listing; its path may be given without an extension. -/
  | build (output : Option String) (runtimeLibrary : String)
  /-- Show the tokens. -/
  | tokens
  /-- Show the syntax tree. -/
  | tree
  deriving DecidableEq, Repr, Inhabited

structure Job where
  /-- The path of the source file. -/
  source : String
  target : Target
  noPrelude : Bool := false
  verbose : Bool := false
  /-- Problems are shown on standard output, one on each line, rather than among the notices. -/
  plain : Bool := false
  deriving DecidableEq, Repr, Inhabited

inductive Job.Result where
  | done
  | rejected
  | fileTrouble
  deriving DecidableEq, Repr, Inhabited

/-- Something told to the user beside the results. -/
inductive Notice where
  | event (e : Event)
  | problem (d : Diagnostic)
  | unreadable
  | unwritable (path : String)

def Notice.render : Notice → String
  | event e => e.render
  | problem d =>
    String.intercalate "\n"
      (d.render :: (d.labels.map (·.text) ++ d.freeNotes).filterMap fun text =>
        if text.isEmpty then none else some ("  = " ++ text))
  | unreadable => "Error while reading the source file"
  | unwritable path => "Error while writing " ++ path

structure Job.Report where
  result : Job.Result
  stdout : String
  notices : List Notice

/-- What a job does once its source file has been read. -/
structure Job.Plan where
  result : Job.Result
  stdout : String := ""
  notices : List Notice := []
  /-- The file to write: its path and the text. -/
  output : Option (String × String) := none

namespace Job

/-- The least important level of events that are told. -/
def threshold (job : Job) : Level := if job.verbose then .debug else .warn

def noticesOfEvent (job : Job) (e : Event) : List Notice :=
  if job.threshold.rank ≤ e.level.rank then [.event e] else []

def noticesOfSignal (job : Job) : Signal → List Notice
  | .event e => job.noticesOfEvent e
  | .display ds => if job.plain then [] else ds.map .problem

def printOfSignal (job : Job) : Signal → String
  | .event _ => ""
  | .display ds => if job.plain then String.join (ds.map fun d => d.render ++ "\n") else ""

def planOfSignals (job : Job) (result : Result) (signals : List Signal)
    (output : Option (String × String)) : Plan where
  result := result
  stdout := String.join (signals.map job.printOfSignal)
  notices := signals.flatMap job.noticesOfSignal
  output := output

def tokenLine (t : Token) : String :=
  toString t.span.line ++ ":" ++ toString t.span.column ++ "\t" ++ t.kind.describe ++ "\t" ++
    t.lexeme ++ "\n"

def outputPath (source : String) (output : Option String) : String :=
  Path.withExtension (output.getD source) "il"

def assemblyName (path : String) : String := (Path.stem? path).getD "main"

def compilerOptions (job : Job) : CompilerOptions where
  noPrelude := job.noPrelude
  build :=
    match job.target with
    | .build output runtimeLibrary =>
      { runtimeLibrary := runtimeLibrary
        outputName := assemblyName (outputPath job.source output) }
    | _ => {}

def planOfText (job : Job) (text : String) : Except Unanalyzed Plan :=
  match job.target with
  | .tokens =>
    .ok { result := .done
          stdout := String.join ((TokenStream.ofText .user text).toList.map tokenLine) }
  | .tree =>
    match Program.ofText .user text with
    | .ok program => .ok { result := .done, stdout := program.outline.render ++ "\n" }
    | .error errors =>
      .ok (job.planOfSignals .rejected [.display (errors.map .syntaxError)] none)
  | .check => do
    let c ← compile job.compilerOptions text
    match c.artifact with
    | some _ =>
      let event := Signal.event (.checked (Diagnostic.warningCount c.diagnostics))
      return job.planOfSignals .done (c.signals ++ [event]) none
    | none => return job.planOfSignals .rejected c.signals none
  | .build output _ => do
    let c ← compile job.compilerOptions text
    match c.artifact with
    | some artifact =>
      return job.planOfSignals .done c.signals
        (some (outputPath job.source output, artifact.image))
    | none => return job.planOfSignals .rejected c.signals none

/-- What a job does with the content of its source file, if that could be read. The content has to
be text in UTF-8. -/
def plan (job : Job) (content : Option ByteArray) : Except Unanalyzed Plan :=
  match content.bind String.fromUTF8? with
  | some text => job.planOfText text
  | none => .ok { result := .fileTrouble, notices := [.unreadable] }

/-- What comes of a job, by whether its output could be written. -/
def Plan.finish (p : Plan) (job : Job) (written : Bool) : Report :=
  match p.output with
  | none => ⟨p.result, p.stdout, p.notices⟩
  | some (path, text) =>
    if written then
      ⟨p.result, p.stdout,
        p.notices ++ job.noticesOfEvent (.listingWritten path text.utf8ByteSize)⟩
    else ⟨.fileTrouble, p.stdout, p.notices ++ [.unwritable path]⟩

end Job

end Mixin
