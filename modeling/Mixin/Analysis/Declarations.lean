import Mixin.Analysis.Basic

/-!
# Collecting declarations

Every type, field and method of a program is declared in the symbol table and entered into the
registry, in the order in which they are written. Parameters of a class that carry a binding are
declared as fields before the members, the first of each name only.
-/

namespace Mixin

def TypeDef.decl (d : TypeDef) : ClassDecl where
  name := d.name.text
  kind := d.kind
  modifiers := d.modifiers.set
  typeParameters := d.typeParameters.map fun p => (p.variance, p.name.text)
  parents := d.parents.map fun p => p.type.name
  site := some d.name.span

def Parameter.fieldInfo (p : Parameter) (binding : Binding) (owner : ClassId) : FieldInfo where
  name := p.name.text
  type := some p.type
  binding := binding
  isParameter := true
  hasInitializer := true
  owner := owner
  site := some p.name.span

def Field.info (f : Field) (owner : ClassId) : FieldInfo where
  name := f.name.text
  type := f.type
  binding := f.binding
  isParameter := false
  hasInitializer := f.initializer.isGiven
  owner := owner
  site := some f.name.span

def Method.info (m : Method) (owner : ClassId) : MethodInfo where
  name := m.name.text
  modifiers := m.modifiers.set
  parameters := m.parameters.map fun p => ⟨p.name, some p.type⟩
  result := m.result
  isAbstract := m.isAbstract
  owner := owner
  site := some m.name.span

/-- The warning that a trait is said to be abstract. -/
def TypeDef.redundantAbstract (d : TypeDef) : List Diagnostic :=
  match d.kind with
  | .trait => (d.modifiers.spanOf? .abstract).toList.map fun s => .redundantAbstract d.name.text s
  | _ => []

namespace Analysis

def declareParameter (a : Analysis) (owner : ClassId) (p : Parameter) (binding : Binding) :
    Analysis :=
  let declared := a.symbols.declareField (p.fieldInfo binding owner)
  { a with symbols := declared.table, registry := a.registry.addParameter p declared.id }.report
    declared.diagnostics

/-- Declares those parameters of a class that carry a binding and whose name no parameter before
them has. -/
def declareParameters (a : Analysis) (owner : ClassId) (ps : List Parameter) : Analysis :=
  (distinctBy (fun p => p.name.text) [] ps).foldl
    (fun a p =>
      match p.binding with
      | some binding => a.declareParameter owner p binding
      | none => a)
    a

def declareMember (a : Analysis) (owner : ClassId) : Member → Analysis
  | .field f =>
    let declared := a.symbols.declareField (f.info owner)
    { a with symbols := declared.table, registry := a.registry.addField f declared.id }.report
      declared.diagnostics
  | .method m =>
    let declared := a.symbols.declareMethod (m.info owner)
    { a with symbols := declared.table, registry := a.registry.addMethod m declared.id }.report
      declared.diagnostics

def declareHead (a : Analysis) (d : TypeDef) : Analysis × ClassId :=
  let declared := a.symbols.declareClass d.decl
  (({ a with symbols := declared.table, registry := a.registry.addClass d declared.id }.report
      (d.redundantAbstract ++ declared.diagnostics)).log [.typeDeclared d.name.text d.kind],
    declared.id)

def declareType (a : Analysis) (d : TypeDef) : Analysis :=
  let (declared, id) := a.declareHead d
  let checked := declared.report (SymbolTable.checkParameters (d.parameters.map (·.name)))
  d.members.foldl (fun a m => a.declareMember id m) (checked.declareParameters id d.parameters)

def collectDeclarations (a : Analysis) (units : List Program) : Analysis :=
  let collected := (units.flatMap (·.definitions)).foldl declareType a
  collected.log [.declarationsCollected collected.symbols.classes.size]

end Analysis

end Mixin
