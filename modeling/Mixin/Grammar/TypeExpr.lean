import Mixin.Grammar.Parser

/-!
# Reading types

A type is a name, perhaps with arguments in brackets on the same line; types in parentheses; or a
function type, whose arrow has to follow a plain name on the same line. One type in parentheses is
that type.
-/

namespace Mixin.Parser

/-- Reads items in brackets if they begin on this line. -/
def bracketedOnLine {α : Type} (item : Parser α) : Parser (List α) := do
  if ← look (·.isAtOnLine .leftBracket) then
    let _ ← next
    let items ← commaList item
    let _ ← expect .rightBracket (.oneOf [.comma, .rightBracket])
    return items
  else return []

/-- Reads a name with type arguments, where `type` reads an argument. -/
def namedTypeWith (type : Parser TypeExpr) : Parser NamedType := do
  let name ← identifier
  let arguments ← bracketedOnLine type
  return ⟨name, arguments, name.span.through (← look Cursor.previousSpan)⟩

/-- Reads a type that begins with a parenthesis at `start`. -/
def parenthesizedType (type : Parser TypeExpr) (start : Span) : Parser TypeExpr := do
  let elements ← enclosed .leftParen .rightParen type
  match ← behind? .arrow type with
  | some result => return .function elements result (start.through result.span)
  | none =>
    match elements with
    | [only] => return only
    | _ => return .tuple elements (start.through (← look Cursor.previousSpan))

/-- Reads a type, where `type` reads the types in it. -/
def typeBody (type : Parser TypeExpr) : Parser TypeExpr := do
  let start ← look (·.peek.span)
  if ← look (·.isAt .leftParen) then parenthesizedType type start
  else
    let named := (← namedTypeWith type).toTypeExpr
    if ← look (·.isAtOnLine .arrow) then
      let _ ← next
      let result ← type
      return .function [named] result (start.through result.span)
    else return named

def typeExpr : Parser TypeExpr := fix typeBody

def namedType : Parser NamedType := namedTypeWith typeExpr

end Mixin.Parser
