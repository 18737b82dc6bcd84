import Mixin.Compilation

/-!
# Sessions

A session compiles one text after another. It keeps the stage that the last compilation reached and
the problems recorded since, by the compilation or from outside; each compilation begins with none.
Whether a session that is at work on a text (`Session.Progress`) goes on to the next stage is
decided by the problems recorded in it, wherever they come from.
-/

namespace Mixin

structure Session where
  stage : Stage
  diagnostics : List Diagnostic

inductive Session.Step where
  | compile (source : String)
  | record (d : Diagnostic)
  | flush
  | clear

structure Session.Outcome where
  after : Session
  artifact : Option Artifact
  signals : List Signal

namespace Session

def initial : Session := ⟨.init, []⟩

instance : Inhabited Session := ⟨initial⟩

def record (s : Session) (ds : List Diagnostic) : Session :=
  { s with diagnostics := s.diagnostics ++ ds }

def clear (s : Session) : Session := { s with diagnostics := [] }

def ofKind (s : Session) (kind : DiagnosticKind) : List Diagnostic :=
  s.diagnostics.filter fun d => d.kind == kind

def hasError (s : Session) : Bool := s.diagnostics.any Diagnostic.isError

/-- A session at work on a text, and what could be seen of it since it took the text up. -/
structure Progress where
  state : Session
  signals : List Signal := []

namespace Progress

def tell (p : Progress) (events : List Event) : Progress :=
  { p with signals := p.signals ++ events.map .event }

def reach (p : Progress) (stage : Stage) : Progress :=
  { p.tell [.stageReached p.state.stage stage] with state := { p.state with stage := stage } }

def record (p : Progress) (ds : List Diagnostic) : Progress := { p with state := p.state.record ds }

/-- Hands all recorded problems over for display. -/
def flush (p : Progress) : Progress :=
  { p with signals := p.signals ++ [.display p.state.diagnostics] }

/-- Takes over what the analyses found. They have gone through their stages by then. -/
def analyzed (p : Progress) (a : Analysis) : Progress :=
  let found := (p.record a.diagnostics).tell a.events
  { found with state := { found.state with stage := .obligationsValidated } }

/-- Gives a text up because of the problems in it. -/
def abort (p : Progress) : Outcome :=
  let stopped := p.reach .aborted
  let ds := stopped.state.diagnostics
  let told := stopped.tell [.stopped (Diagnostic.errorCount ds) (Diagnostic.warningCount ds)]
  let shown := told.flush
  ⟨shown.state, none, shown.signals⟩

def generate (p : Progress) (options : CompilerOptions) (program : Program)
    (symbols : SymbolTable) : Outcome :=
  let result := options.backend program symbols options.build
  let generated := (p.tell result.2).reach .generated
  let ds := generated.state.diagnostics
  let shown := if ds.isEmpty then generated else generated.flush
  let told := shown.tell [.succeeded result.1.name (Diagnostic.warningCount ds)]
  ⟨told.state, some result.1, told.signals⟩

end Progress

/-- Compiles a text. The stage and the problems of the last compilation are forgotten first. -/
def compile (options : CompilerOptions) (s : Session) (source : String) :
    Except Unanalyzed Outcome :=
  let begun : Progress := { state := { s.clear with stage := .init } }
  let lexed := begun.reach .lexed
  match parseAll (sourceTexts options.noPrelude source) with
  | .error errors =>
    let parsed := (lexed.record (errors.map .syntaxError)).reach .parsed
    .ok (parsed.tell [.syntaxErrorsFound errors.length]).abort
  | .ok units => do
    let a ← analyze units
    let analyzed := (lexed.reach .parsed).analyzed a
    if analyzed.state.hasError then
      return analyzed.abort
    else
      return analyzed.generate options (units.getLast?.getD ⟨[]⟩) a.symbols

def run (options : CompilerOptions) (s : Session) : Step → Except Unanalyzed Outcome
  | .compile source => s.compile options source
  | .record d => .ok ⟨s.record [d], none, []⟩
  | .flush => .ok ⟨s, none, [.display s.diagnostics]⟩
  | .clear => .ok ⟨s.clear, none, []⟩

def runAll (options : CompilerOptions) : Session → List Step → Except Unanalyzed (List Outcome)
  | _, [] => .ok []
  | s, step :: steps => do
    let outcome ← s.run options step
    let others ← runAll options outcome.after steps
    return outcome :: others

end Session

end Mixin
