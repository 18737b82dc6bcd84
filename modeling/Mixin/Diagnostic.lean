import Mixin.Grammar.SyntaxError
import Mixin.Tree.TypeExpr

/-!
# Diagnostics

A `Diagnostic` is one problem found in a program. It is stored as its cause; the wording, the place
it is shown at, and the notes that go with it are functions of the cause.
-/

namespace Mixin

/-- How serious a problem is. Errors keep a program from being compiled. -/
inductive Severity where
  | error
  | warning
  deriving DecidableEq, Repr, Inhabited

def Severity.word : Severity → String
  | error => "error"
  | warning => "warning"

inductive DiagnosticKind where
  | syntaxError
  | duplicateDeclaration
  | unresolvedSupertype
  | missingInitializer
  | unimplementedMember
  | abstractInConcrete
  | cyclicInheritance
  | redundantAbstract
  deriving DecidableEq, Repr, Inhabited

namespace DiagnosticKind

def all : List DiagnosticKind :=
  [syntaxError, duplicateDeclaration, unresolvedSupertype, missingInitializer, unimplementedMember,
   abstractInConcrete, cyclicInheritance, redundantAbstract]

def code : DiagnosticKind → String
  | syntaxError => "E0001"
  | duplicateDeclaration => "E0002"
  | unresolvedSupertype => "E0003"
  | missingInitializer => "E0004"
  | unimplementedMember => "E0005"
  | abstractInConcrete => "E0006"
  | cyclicInheritance => "E0007"
  | redundantAbstract => "W0001"

def ofCode? (code : String) : Option DiagnosticKind := all.find? (·.code == code)

def severity : DiagnosticKind → Severity
  | redundantAbstract => .warning
  | _ => .error

end DiagnosticKind

/-- A type as far as messages speak of it. -/
structure TypeSketch where
  kind : TypeKind
  name : String
  /-- Where it is named first; the root has no such place. -/
  site : Option Span
  deriving DecidableEq, Repr, Inhabited

/-- A method as far as messages speak of it. -/
structure MethodSketch where
  name : String
  /-- The method with its parameters and its result. -/
  heading : String
  site : Option Span
  deriving DecidableEq, Repr, Inhabited

inductive Diagnostic where
  /-- The text is not a program. -/
  | syntaxError (error : SyntaxError)
  /-- An `entity` with this name exists already in the same scope. -/
  | duplicate (entity name : String) (location : Span) (previous : Option Span)
  /-- A type inherits from a type that does not exist. -/
  | unresolvedSupertype (name subtype : String) (location : Span)
  /-- A field in a body has no value to start with. -/
  | missingInitializer (binding : Binding) (field : Ident) (type : Option TypeExpr) (owner : String)
  /-- A type inherits a method without a body and does not supply one. -/
  | unimplementedMember (heir : TypeSketch) (member : MethodSketch) (declaredIn : String)
  /-- A method without a body stands in a type that has to be complete. -/
  | abstractInConcrete (member : MethodSketch) (owner : TypeSketch)
  /-- Types inherit from each other in a circle: each from the next, the last from the first. With
  each type goes the place where it names the next. -/
  | cyclicInheritance (first : Ident) (rest : List Ident)
  /-- A trait is said to be abstract, which it is anyway. -/
  | redundantAbstract (trait : String) (location : Span)
  /-- A problem in words of its own. -/
  | remark (kind : DiagnosticKind) (location : Span) (message : String)
  deriving Inhabited

namespace Diagnostic

def kind : Diagnostic → DiagnosticKind
  | syntaxError _ => .syntaxError
  | duplicate .. => .duplicateDeclaration
  | unresolvedSupertype .. => .unresolvedSupertype
  | missingInitializer .. => .missingInitializer
  | unimplementedMember .. => .unimplementedMember
  | abstractInConcrete .. => .abstractInConcrete
  | cyclicInheritance .. => .cyclicInheritance
  | redundantAbstract .. => .redundantAbstract
  | remark kind .. => kind

def code (d : Diagnostic) : String := d.kind.code

def severity (d : Diagnostic) : Severity := d.kind.severity

def isError (d : Diagnostic) : Bool := d.severity == .error

def location : Diagnostic → Span
  | syntaxError error => error.span
  | duplicate _ _ location _ => location
  | unresolvedSupertype _ _ location => location
  | missingInitializer _ field _ _ => field.span
  | unimplementedMember heir _ _ => heir.site.getD .topOfFile
  | abstractInConcrete member _ => member.site.getD .topOfFile
  | cyclicInheritance first _ => first.span
  | redundantAbstract _ location => location
  | remark _ location _ => location

def quoted (name : String) : String := "`" ++ name ++ "`"

def message : Diagnostic → String
  | syntaxError error => error.message
  | duplicate entity name _ _ =>
    entity ++ " " ++ quoted name ++ " is already defined in this scope"
  | unresolvedSupertype name _ _ => "cannot find type " ++ quoted name ++ " to inherit from"
  | missingInitializer _ field _ owner =>
    "field " ++ quoted field.text ++ " of " ++ quoted owner ++ " has no initializer"
  | unimplementedMember heir member declaredIn =>
    heir.kind.keyword ++ " " ++ quoted heir.name ++ " does not implement abstract method " ++
      quoted member.name ++ " inherited from " ++ quoted declaredIn
  | abstractInConcrete member owner =>
    "abstract method " ++ quoted member.name ++ " in concrete " ++ owner.kind.keyword ++ " " ++
      quoted owner.name
  | cyclicInheritance first _ => "cyclic inheritance involving " ++ quoted first.text
  | redundantAbstract trait _ => "redundant `abstract` modifier on trait " ++ quoted trait
  | remark _ _ message => message

def syntaxSubtitle : SyntaxError → String
  | .unexpectedToken expected .. => "expected " ++ expected.describe ++ " here"
  | .invalidCharacter .. => "this character cannot appear in a program"
  | .invalidLiteral .. => "cannot be decoded"
  | .illegalModifier modifier .. => quoted modifier.keyword ++ " is not allowed here"
  | .parametersNotAllowed kind _ => kind.keyword ++ " parameters start here"

def subtitle? : Diagnostic → Option String
  | syntaxError error => some (syntaxSubtitle error)
  | duplicate _ name _ _ => some ("attempted to redefine " ++ quoted name ++ " here")
  | unresolvedSupertype .. => some "not found in this program"
  | missingInitializer .. => some "declared without a value"
  | unimplementedMember _ member _ =>
    some ("missing an implementation of " ++ quoted member.heading)
  | abstractInConcrete .. => some "method has no body"
  | cyclicInheritance first _ => some (quoted first.text ++ " eventually inherits from itself")
  | redundantAbstract .. => some "traits are always abstract"
  | remark .. => none

/-- Where each of `names` inherits from the one behind it, the last from `first`. -/
def inheritanceNotes (first : Ident) : List Ident → List (Span × String)
  | [] => []
  | name :: rest =>
    let next := (rest.head?.getD first).text
    (name.span, quoted name.text ++ " inherits from " ++ quoted next ++ " here") ::
      inheritanceNotes first rest

def boundNotes : Diagnostic → List (Span × String)
  | duplicate _ name _ previous =>
    previous.toList.map fun span => (span, quoted name ++ " previously defined here")
  | unimplementedMember _ member _ =>
    member.site.toList.map fun span => (span, quoted member.name ++ " declared abstract here")
  | abstractInConcrete _ owner =>
    owner.site.toList.map fun span => (span, quoted owner.name ++ " is not abstract")
  | cyclicInheritance first rest => inheritanceNotes first rest
  | _ => []

def syntaxNotes : SyntaxError → List String
  | .invalidLiteral .. =>
    ["help: integer literals must fit into 64 bits, and the supported escape sequences are " ++
      "\\n \\t \\r \\0 \\\\ \\\" \\'"]
  | .illegalModifier modifier .. =>
    ["help: remove the " ++ quoted modifier.keyword ++ " modifier"]
  | .parametersNotAllowed .. =>
    ["help: only classes take constructor parameters; " ++
      "declare the values as abstract members instead"]
  | _ => []

/-- How a class might be spared from being complete. -/
def orAbstract (type : TypeSketch) : String :=
  if type.kind = .«class» then ", or declare " ++ quoted type.name ++ " as `abstract`" else ""

/-- What is said about no particular place: how the problem might be mended. -/
def freeNotes : Diagnostic → List String
  | syntaxError error => syntaxNotes error
  | duplicate _ name _ _ => ["help: rename one of the definitions of " ++ quoted name]
  | unresolvedSupertype name subtype _ =>
    ["help: define " ++ quoted name ++ ", or remove it from the parents of " ++ quoted subtype]
  | missingInitializer binding field type _ =>
    ["help: add an initializer, for example `" ++ binding.keyword ++ " " ++ field.text ++ ": " ++
      (type.map TypeExpr.render).getD "T" ++
      " = ...`, or turn the field into a constructor parameter"]
  | unimplementedMember heir member _ =>
    ["help: implement " ++ quoted member.name ++ " in " ++ quoted heir.name ++
      orAbstract heir]
  | abstractInConcrete member owner =>
    ["help: provide a body for " ++ quoted member.name ++
      orAbstract owner]
  | cyclicInheritance first rest =>
    ["inheritance path: " ++
      String.intercalate " -> " (((first :: rest) ++ [first]).map fun name => quoted name.text),
     "help: remove one of the parents to break the cycle"]
  | redundantAbstract .. => ["help: remove the `abstract` modifier"]
  | remark .. => []

/-- A place that is marked when a problem is shown, and what is said next to it. -/
structure Label where
  isPrimary : Bool
  span : Span
  text : String
  deriving DecidableEq, Repr, Inhabited

def labels (d : Diagnostic) : List Label :=
  ⟨true, d.location, d.subtitle?.getD ""⟩ :: d.boundNotes.map fun n => ⟨false, n.1, n.2⟩

def render (d : Diagnostic) : String :=
  toString d.location.line ++ ":" ++ toString d.location.column ++ ": " ++ d.severity.word ++ "[" ++
    d.code ++ "]: " ++ d.message

def errorCount (ds : List Diagnostic) : Nat := ds.countP isError

def warningCount (ds : List Diagnostic) : Nat := ds.countP fun d => !d.isError

end Diagnostic

end Mixin
