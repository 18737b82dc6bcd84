import Mixin.Symbol.Info

/-!
# From definitions to identifiers

A `Registry` remembers which identifier each definition of a program got when it was declared. A
definition is known by its place: a type and a method by the span of its signature, a field and a
parameter by its span. Of two entries for one place the later one counts.
-/

namespace Mixin

/-- The identifiers that definitions got, the latest first. -/
structure Registry where
  classes : List (Span × ClassId)
  fields : List (Span × FieldId)
  methods : List (Span × MethodId)

/-- A definition that has no identifier because declarations were not collected before. -/
inductive Unanalyzed where
  | typeDef (kind : TypeKind) (name : String)
  | field (name : String)
  | method (name : String)
  deriving DecidableEq, Repr, Inhabited

/-- What is said of a definition without an identifier. -/
def Unanalyzed.message (u : Unanalyzed) : String :=
  let what :=
    match u with
    | typeDef kind name => kind.keyword ++ " `" ++ name ++ "`"
    | field name => "Field `" ++ name ++ "`"
    | method name => "Method `" ++ name ++ "`"
  what ++ " was not analyzed in previous passes"

namespace Registry

def empty : Registry := ⟨[], [], []⟩

instance : Inhabited Registry := ⟨empty⟩

def addClass (r : Registry) (d : TypeDef) (id : ClassId) : Registry :=
  { r with classes := (d.signature, id) :: r.classes }

def addField (r : Registry) (f : Field) (id : FieldId) : Registry :=
  { r with fields := (f.span, id) :: r.fields }

def addParameter (r : Registry) (p : Parameter) (id : FieldId) : Registry :=
  { r with fields := (p.span, id) :: r.fields }

def addMethod (r : Registry) (m : Method) (id : MethodId) : Registry :=
  { r with methods := (m.signature, id) :: r.methods }

def classOf (r : Registry) (d : TypeDef) : Except Unanalyzed ClassId :=
  match r.classes.lookup d.signature with
  | some id => .ok id
  | none => .error (.typeDef d.kind d.name.text)

def fieldOf (r : Registry) (f : Field) : Except Unanalyzed FieldId :=
  match r.fields.lookup f.span with
  | some id => .ok id
  | none => .error (.field f.name.text)

def methodOf (r : Registry) (m : Method) : Except Unanalyzed MethodId :=
  match r.methods.lookup m.signature with
  | some id => .ok id
  | none => .error (.method m.name.text)

def parameterField? (r : Registry) (p : Parameter) : Option FieldId := r.fields.lookup p.span

end Registry

end Mixin
