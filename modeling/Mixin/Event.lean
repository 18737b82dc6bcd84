import Mixin.Diagnostic

/-!
# Progress

What a compilation tells of its progress: the stages it goes through and what it meets on the way.
Each event has a level, a message and named values.
-/

namespace Mixin

inductive Stage where
  | init
  | lexed
  | parsed
  | symbolsBuilt
  | structureValidated
  | obligationsValidated
  | generated
  | aborted
  deriving DecidableEq, Repr, Inhabited

def Stage.name : Stage → String
  | init => "Init"
  | lexed => "Lexed"
  | parsed => "Parsed"
  | symbolsBuilt => "SymbolsBuilt"
  | structureValidated => "StructureValidated"
  | obligationsValidated => "ObligationsValidated"
  | generated => "Generated"
  | aborted => "Aborted"

/-- How important an event is. -/
inductive Level where
  | trace
  | debug
  | info
  | warn
  | error
  deriving DecidableEq, Repr, Inhabited

def Level.name : Level → String
  | trace => "TRACE"
  | debug => "DEBUG"
  | info => "INFO"
  | warn => "WARN"
  | error => "ERROR"

/-- The place of a level among all, the least important first. -/
def Level.rank : Level → Nat
  | trace => 0
  | debug => 1
  | info => 2
  | warn => 3
  | error => 4

inductive EventValue where
  | text (s : String)
  | count (n : Nat)
  deriving DecidableEq, Repr, Inhabited

inductive Event where
  | stageReached (before after : Stage)
  | syntaxErrorsFound (count : Nat)
  | typeDeclared (name : String) (kind : TypeKind)
  | declarationsCollected (types : Nat)
  | cycleBroken (length : Nat)
  | initializerMissing (field owner : String)
  | memberUnimplemented (heir signature : String)
  | listingGenerated (bytes : Nat) (assembly : String)
  | succeeded (assembly : String) (warnings : Nat)
  | stopped (errors warnings : Nat)
  | reported (d : Diagnostic)
  | checked (warnings : Nat)
  | listingWritten (path : String) (bytes : Nat)
  deriving Inhabited

namespace Event

def level : Event → Level
  | typeDeclared .. | initializerMissing .. | memberUnimplemented .. => .trace
  | succeeded .. | checked .. => .info
  | stopped .. => .warn
  | reported d => if d.isError then .error else .warn
  | _ => .debug

def message : Event → String
  | stageReached .. => "compilation stage transition"
  | syntaxErrorsFound .. => "syntax errors found, skipping analysis"
  | typeDeclared .. => "declared type"
  | declarationsCollected .. => "collected declarations"
  | cycleBroken .. => "breaking inheritance cycle"
  | initializerMissing .. => "missing initializer"
  | memberUnimplemented .. => "unimplemented"
  | listingGenerated .. => "generated assembly listing"
  | succeeded .. => "compilation succeeded"
  | stopped .. => "compilation aborted"
  | reported d => d.message
  | checked .. => "no errors found"
  | listingWritten .. => "wrote assembly"

def values : Event → List (String × EventValue)
  | stageReached before after => [("from", .text before.name), ("to", .text after.name)]
  | syntaxErrorsFound count => [("count", .count count)]
  | typeDeclared name kind => [("name", .text name), ("kind", .text kind.keyword)]
  | declarationsCollected types => [("types", .count types)]
  | cycleBroken length => [("length", .count length)]
  | initializerMissing field owner => [("field", .text field), ("owner", .text owner)]
  | memberUnimplemented heir signature => [("class", .text heir), ("method", .text signature)]
  | listingGenerated bytes assembly => [("bytes", .count bytes), ("assembly", .text assembly)]
  | succeeded assembly warnings => [("assembly", .text assembly), ("warnings", .count warnings)]
  | stopped errors warnings => [("errors", .count errors), ("warnings", .count warnings)]
  | reported d =>
    [("code", .text d.code), ("line", .count d.location.line), ("column", .count d.location.column)]
  | checked warnings => [("warnings", .count warnings)]
  | listingWritten path bytes => [("path", .text path), ("bytes", .count bytes)]

def render (e : Event) : String :=
  let value : EventValue → String
    | .text s => s
    | .count n => toString n
  e.level.name ++ " " ++ e.message ++
    String.join (e.values.map fun (name, v) => " " ++ name ++ "=" ++ value v)

end Event

end Mixin
