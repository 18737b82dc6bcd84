import Mixin.Analysis.Registry
import Mixin.Event
import Mixin.Symbol.Hierarchy

/-!
# Analyses

An `Analysis` is what has been found out about a program so far: the symbol table, the identifiers
of its definitions, the problems and the events. Analyses extend one another; none stops because of
a problem that it found.
-/

namespace Mixin

/-- What has been found out about a program. -/
structure Analysis where
  symbols : SymbolTable
  registry : Registry
  diagnostics : List Diagnostic
  events : List Event

namespace Analysis

def initial : Analysis := ⟨.initial, .empty, [], []⟩

instance : Inhabited Analysis := ⟨initial⟩

def report (a : Analysis) (ds : List Diagnostic) : Analysis :=
  { a with diagnostics := a.diagnostics ++ ds }

def log (a : Analysis) (es : List Event) : Analysis := { a with events := a.events ++ es }

@[simp] theorem report_symbols (a : Analysis) (ds : List Diagnostic) :
    (a.report ds).symbols = a.symbols := rfl

@[simp] theorem log_symbols (a : Analysis) (es : List Event) : (a.log es).symbols = a.symbols := rfl

@[simp] theorem report_registry (a : Analysis) (ds : List Diagnostic) :
    (a.report ds).registry = a.registry := rfl

@[simp] theorem log_registry (a : Analysis) (es : List Event) :
    (a.log es).registry = a.registry := rfl

end Analysis

end Mixin
