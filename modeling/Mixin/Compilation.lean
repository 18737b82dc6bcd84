import Mixin.Analysis.Checks
import Mixin.Analysis.Declarations
import Mixin.Analysis.Supertypes
import Mixin.Grammar.Definition
import Mixin.Listing.Assembly
import Mixin.Prelude

/-!
# Compiling

`compile` takes a text through all stages: tokens, syntax, declarations and supertypes, structure,
obligations, listing. It ends early after syntax errors, and before the listing if any error was
found. What a compilation shows to the outside are signals: events, and the problems handed over for
display.
-/

namespace Mixin

structure Artifact where
  name : String
  runtimeLibrary : String
  image : String
  deriving DecidableEq, Repr, Inhabited

abbrev Backend := Program → SymbolTable → BuildOptions → Artifact × List Event

def listingBackend : Backend := fun program symbols options =>
  let image := (Assembly.ofProgram program symbols options).render
  (⟨options.outputName, options.runtimeLibrary, image⟩,
    [.listingGenerated image.utf8ByteSize options.outputName])

structure CompilerOptions where
  noPrelude : Bool := false
  build : BuildOptions := {}
  backend : Backend := listingBackend

/-- What can be seen of a compilation while it runs. -/
inductive Signal where
  /-- Something happened. -/
  | event (e : Event)
  /-- Problems are handed over to be shown. -/
  | display (ds : List Diagnostic)

structure Compilation where
  stage : Stage
  artifact : Option Artifact
  diagnostics : List Diagnostic
  signals : List Signal

def sourceTexts (noPrelude : Bool) (source : String) : List (SourceFile × String) :=
  (if noPrelude then [] else [(.prelude, preludeText)]) ++ [(.user, source)]

/-- The programs that texts are, or all syntax errors in all of them. -/
def parseAll : List (SourceFile × String) → Except (List SyntaxError) (List Program)
  | [] => .ok []
  | (file, text) :: rest =>
    match Program.ofText file text, parseAll rest with
    | .ok program, .ok programs => .ok (program :: programs)
    | .ok _, .error errors => .error errors
    | .error errors, .ok _ => .error errors
    | .error errors, .error others => .error (errors ++ others)

def analyze (units : List Program) : Except Unanalyzed Analysis := do
  let built ← (Analysis.initial.collectDeclarations units).resolveSupertypes units
  let built := built.log [.stageReached .parsed .symbolsBuilt]
  let structured ← built.checkStructure units
  let structured := structured.log [.stageReached .symbolsBuilt .structureValidated]
  let checked ← structured.checkObligations units
  return checked.log [.stageReached .structureValidated .obligationsValidated]

def Compilation.stopped (reached : Stage) (ds : List Diagnostic) (events : List Event) :
    Compilation where
  stage := .aborted
  artifact := none
  diagnostics := ds
  signals :=
    events.map .event ++
      [.event (.stageReached reached .aborted),
       .event (.stopped (Diagnostic.errorCount ds) (Diagnostic.warningCount ds)), .display ds]

def Compilation.finished (options : CompilerOptions) (program : Program) (symbols : SymbolTable)
    (ds : List Diagnostic) (events : List Event) : Compilation :=
  let (artifact, generated) := options.backend program symbols options.build
  { stage := .generated
    artifact := some artifact
    diagnostics := ds
    signals :=
      (events ++ generated).map .event ++
        [.event (.stageReached .obligationsValidated .generated)] ++
        (if ds.isEmpty then [] else [.display ds]) ++
        [.event (.succeeded artifact.name (Diagnostic.warningCount ds))] }

def compile (options : CompilerOptions) (source : String) : Except Unanalyzed Compilation :=
  let started : List Event := [.stageReached .init .lexed, .stageReached .lexed .parsed]
  match parseAll (sourceTexts options.noPrelude source) with
  | .error errors =>
    .ok (.stopped .parsed (errors.map .syntaxError)
      (started ++ [.syntaxErrorsFound errors.length]))
  | .ok units => do
    let a ← analyze units
    if a.diagnostics.any Diagnostic.isError then
      return .stopped .obligationsValidated a.diagnostics (started ++ a.events)
    else
      return .finished options (units.getLast?.getD ⟨[]⟩) a.symbols a.diagnostics
        (started ++ a.events)

end Mixin
