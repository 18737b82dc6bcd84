import Mixin.Modifier
import Mixin.Tree.Expr

/-!
# Definitions

A program is a list of type definitions: classes, traits and objects, with their parameters, parents
and members.
-/

namespace Mixin

/-- How a type parameter varies with its argument. -/
inductive Variance where
  | invariant
  | covariant
  | contravariant
  deriving DecidableEq, Repr, Inhabited

/-- The sign that marks a variance. -/
def Variance.sigil : Variance → String
  | invariant => ""
  | covariant => "+"
  | contravariant => "-"

structure TypeParameter where
  name : Ident
  variance : Variance
  bound : Option TypeExpr
  span : Span
  deriving Inhabited

/-- A parameter of a class or of a method. A class parameter with a binding is a field too. -/
structure Parameter where
  modifiers : ModifierList
  binding : Option Binding
  name : Ident
  type : TypeExpr
  default : Option Expr
  span : Span

/-- A supertype with the arguments for its constructor. -/
structure Parent where
  type : NamedType
  arguments : List Expr
  span : Span

/-- The value a field starts with, or the place where it was left out. -/
inductive Initializer where
  | given (value : Expr)
  | omitted (span : Span)

def Initializer.isGiven : Initializer → Bool
  | given _ => true
  | omitted _ => false

structure Field where
  modifiers : ModifierList
  binding : Binding
  name : Ident
  type : Option TypeExpr
  initializer : Initializer
  span : Span

/-- A method. It is abstract if it has no body. -/
structure Method where
  modifiers : ModifierList
  name : Ident
  typeParameters : List TypeParameter
  /-- The parameters by clause. -/
  clauses : List (List Parameter)
  result : Option TypeExpr
  body : Option Expr
  /-- From the first modifier to the result type. -/
  signature : Span

namespace Method

def parameters (m : Method) : List Parameter := m.clauses.flatten

/-- The number of parameters of all clauses together. -/
def arity (m : Method) : Nat := m.parameters.length

def isAbstract (m : Method) : Bool := m.body.isNone

end Method

inductive Member where
  | field (f : Field)
  | method (m : Method)

def Member.field? : Member → Option Field
  | field f => some f
  | method _ => none

def Member.method? : Member → Option Method
  | field _ => none
  | method m => some m

structure TypeDef where
  kind : TypeKind
  modifiers : ModifierList
  name : Ident
  typeParameters : List TypeParameter
  /-- The parameters of the constructor; only classes have any. -/
  parameters : List Parameter
  parents : List Parent
  members : List Member
  /-- From the first modifier to the name. -/
  signature : Span

namespace TypeDef

def isCase (d : TypeDef) : Bool := d.modifiers.contains .case

def fields (d : TypeDef) : List Field := d.members.filterMap Member.field?

def methods (d : TypeDef) : List Method := d.members.filterMap Member.method?

end TypeDef

/-- A program: its type definitions in the order in which they are written. -/
structure Program where
  definitions : List TypeDef

end Mixin
