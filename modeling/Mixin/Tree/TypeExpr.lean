import Mixin.Span

/-!
# Names and type expressions

A type expression is the name of a type with arguments, a function type, or a tuple type.
`TypeExpr.render` is the text under which listings and messages show it.
-/

namespace Mixin

/-- A name, or an operator used as one, and where it is written. -/
structure Ident where
  text : String
  span : Span
  deriving DecidableEq, Repr, Inhabited

inductive TypeExpr where
  | named (name : Ident) (arguments : List TypeExpr) (span : Span)
  | function (parameters : List TypeExpr) (result : TypeExpr) (span : Span)
  | tuple (elements : List TypeExpr) (span : Span)
  deriving Inhabited

/-- A type written as a name with arguments, the only kind that can be inherited from or created. -/
structure NamedType where
  name : Ident
  arguments : List TypeExpr
  span : Span
  deriving Inhabited

def NamedType.toTypeExpr (type : NamedType) : TypeExpr :=
  .named type.name type.arguments type.span

namespace TypeExpr

def span : TypeExpr → Span
  | named _ _ span => span
  | function _ _ span => span
  | tuple _ span => span

mutual

/-- The text of a type. A function type always shows its parameters in parentheses. -/
def render : TypeExpr → String
  | named name arguments _ =>
    match arguments with
    | [] => name.text
    | first :: rest => name.text ++ "[" ++ render first ++ renderRest rest ++ "]"
  | function parameters result _ => "(" ++ renderList parameters ++ ") => " ++ render result
  | tuple elements _ => "(" ++ renderList elements ++ ")"

def renderList : List TypeExpr → String
  | [] => ""
  | first :: rest => render first ++ renderRest rest

def renderRest : List TypeExpr → String
  | [] => ""
  | next :: rest => ", " ++ render next ++ renderRest rest

end

end TypeExpr

end Mixin
