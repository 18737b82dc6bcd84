import Mixin.Token

/-!
# Syntax errors

Why a text is not a program: each error is a cause and the place where it showed.
-/

namespace Mixin

/-- What the grammar would have accepted in place of an unexpected token. -/
inductive Expected where
  | oneOf (kinds : List TokenKind)
  | typeParameter
  | expression
  | statementEnd
  deriving DecidableEq, Repr, Inhabited

namespace Expected

def enumerate : List String → String
  | [] => ""
  | [only] => only
  | [first, last] => first ++ " or " ++ last
  | first :: rest => first ++ ", " ++ enumerate rest

def describe : Expected → String
  | oneOf kinds => enumerate (kinds.map TokenKind.describe)
  | typeParameter => "type parameter"
  | expression => "expression"
  | statementEnd => enumerate [TokenKind.semicolon.describe, "a new line"]

end Expected

inductive ModifierTarget where
  | types
  | traits
  | objects
  | parameters
  | members
  | mutableFields
  | methods
  deriving DecidableEq, Repr, Inhabited

def ModifierTarget.describe : ModifierTarget → String
  | types => "types"
  | traits => "traits"
  | objects => "objects"
  | parameters => "parameters"
  | members => "members"
  | mutableFields => "variables"
  | methods => "methods"

inductive SyntaxError where
  /-- A token that does not fit. -/
  | unexpectedToken (expected : Expected) (found : TokenKind) (lexeme : String) (span : Span)
  /-- A character that begins no token. -/
  | invalidCharacter (lexeme : String) (span : Span)
  /-- A literal without a value. -/
  | invalidLiteral (lexeme : String) (span : Span)
  /-- A modifier where it makes no sense. -/
  | illegalModifier (modifier : Modifier) (target : ModifierTarget) (span : Span)
  /-- Constructor parameters on a trait or an object. -/
  | parametersNotAllowed (kind : TypeKind) (span : Span)
  deriving DecidableEq, Repr, Inhabited

namespace SyntaxError

def span : SyntaxError → Span
  | unexpectedToken _ _ _ span => span
  | invalidCharacter _ span => span
  | invalidLiteral _ span => span
  | illegalModifier _ _ span => span
  | parametersNotAllowed _ span => span

def message : SyntaxError → String
  | unexpectedToken expected found lexeme _ =>
    "expected " ++ expected.describe ++ ", found " ++ found.describe ++
      (if found.isVaried then " `" ++ lexeme ++ "`" else "")
  | invalidCharacter lexeme _ => "unrecognized character `" ++ lexeme ++ "`"
  | invalidLiteral lexeme _ => "invalid literal `" ++ lexeme ++ "`"
  | illegalModifier modifier target _ =>
    "`" ++ modifier.keyword ++ "` modifier is not allowed on " ++ target.describe
  | parametersNotAllowed kind _ => kind.keyword ++ "s cannot have constructor parameters"

end SyntaxError

end Mixin
