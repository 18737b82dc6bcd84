import Mixin.Diagnostic
import Mixin.Tree.Definition

/-!
# What is known of types and members

Descriptions of declared types, fields and methods, and the identifiers by which a symbol table
refers to them.
-/

namespace Mixin

structure ClassId where
  index : Nat
  deriving DecidableEq, Repr, Inhabited

/-- The type from which all others descend. -/
def ClassId.root : ClassId := ⟨0⟩

structure FieldId where
  index : Nat
  deriving DecidableEq, Repr, Inhabited

structure MethodId where
  index : Nat
  deriving DecidableEq, Repr, Inhabited

inductive MemberId where
  | field (id : FieldId)
  | method (id : MethodId)
  deriving DecidableEq, Repr, Inhabited

def MemberId.field? : MemberId → Option FieldId
  | field id => some id
  | method _ => none

def MemberId.method? : MemberId → Option MethodId
  | field _ => none
  | method id => some id

/-- Methods with equal signatures override each other. -/
structure Signature where
  name : String
  arity : Nat
  deriving DecidableEq, Repr, Inhabited

def Signature.render (s : Signature) : String := s.name ++ "/" ++ toString s.arity

structure ClassDecl where
  name : String
  kind : TypeKind
  modifiers : ModifierSet
  typeParameters : List (Variance × String)
  /-- The supertypes by name, in the order in which they are written. -/
  parents : List Ident
  /-- Where it is named; only the root is named nowhere. -/
  site : Option Span

instance : Inhabited ClassDecl := ⟨⟨"", .«class», .empty, [], [], none⟩⟩

structure ClassInfo extends ClassDecl where
  /-- The members without those that were rejected, in the order in which they were declared. -/
  members : List MemberId := []
  /-- The class from which the type inherits, if it is not the root. -/
  superclass : Option ClassId := none
  /-- The traits from which the type inherits, in the order in which they are written. -/
  traits : List ClassId := []
  deriving Inhabited

namespace ClassInfo

/-- Whether the type may leave methods without a body. -/
def mayBeIncomplete (c : ClassInfo) : Bool := c.kind == .trait || c.modifiers.contains .abstract

def fields (c : ClassInfo) : List FieldId := c.members.filterMap MemberId.field?

def methods (c : ClassInfo) : List MethodId := c.members.filterMap MemberId.method?

/-- The types from which the type inherits directly: the superclass, then the traits. -/
def directSupertypes (c : ClassInfo) : List ClassId := c.superclass.toList ++ c.traits

def sketch (c : ClassInfo) : TypeSketch := ⟨c.kind, c.name, c.site⟩

end ClassInfo

structure ParameterInfo where
  name : Ident
  type : Option TypeExpr
  deriving Inhabited

structure MethodInfo where
  name : String
  modifiers : ModifierSet
  /-- The parameters of all clauses. -/
  parameters : List ParameterInfo
  result : Option TypeExpr
  isAbstract : Bool
  owner : ClassId
  site : Option Span

instance : Inhabited MethodInfo := ⟨⟨"", .empty, [], none, false, .root, none⟩⟩

namespace MethodInfo

/-- What the method overrides and is overridden by. -/
def signature (m : MethodInfo) : Signature := ⟨m.name, m.parameters.length⟩

def annotated (name : String) : Option TypeExpr → String
  | some type => name ++ ": " ++ type.render
  | none => name

def describe (m : MethodInfo) : String :=
  let parameters := m.parameters.map fun p => annotated p.name.text p.type
  let clause := if parameters.isEmpty then "" else "(" ++ String.intercalate ", " parameters ++ ")"
  annotated ("def " ++ m.name ++ clause) m.result

def sketch (m : MethodInfo) : MethodSketch := ⟨m.name, m.describe, m.site⟩

end MethodInfo

structure FieldInfo where
  name : String
  type : Option TypeExpr
  binding : Binding
  /-- Whether the constructor takes the value of the field. -/
  isParameter : Bool
  hasInitializer : Bool
  owner : ClassId
  site : Option Span
  deriving Inhabited

end Mixin
