import Mixin.Grammar.Literal
import Mixin.Grammar.ModifierList
import Mixin.Grammar.Operator
import Mixin.Grammar.TypeExpr

/-!
# Reading expressions

An operator, the parenthesis of a call and the sign of an assignment at the beginning of a line
never go on with the expression on the line before. The parsers for parts of an expression take as
an argument the parser `inner` for the expressions nested in them; `expression` ties the knot.
-/

namespace Mixin

/-- Whether the parenthesis that closes the innermost of `depth` open ones, the last of them, is
followed by an arrow. -/
def closesBeforeArrow : Nat → List Token → Bool
  | _, [] => false
  | depth, t :: rest =>
    match t.kind with
    | .leftParen => closesBeforeArrow (depth + 1) rest
    | .rightParen =>
      if depth ≤ 1 then rest.head?.any fun u => u.kind == .arrow
      else closesBeforeArrow (depth - 1) rest
    | .eof => false
    | _ => closesBeforeArrow depth rest

/-- Whether a closure begins here: a group in parentheses or a name, with an arrow behind it. -/
def Cursor.atClosure (c : Cursor) : Bool :=
  c.isAt .leftParen && closesBeforeArrow 0 c.ahead ||
    c.isAt .identifier && (c.peekNth 1).kind == .arrow

/-- What may stand behind an expression and applies to it. -/
inductive Suffix where
  | select (name : Ident)
  | call (arguments : List Expr) (stop : Span)

def Suffix.attach (e : Expr) : Suffix → Expr
  | select name => .select e name (e.span.through name.span)
  | call arguments stop => .call e arguments (e.span.through stop)

namespace Parser

def typeAnnotation? : Parser (Option TypeExpr) := behind? .colon typeExpr

def binder : Parser Binder := do
  let start ← look (·.peek.span)
  rejectModifiers (← modifiers) ModifierSet.empty.complement .parameters
  let name ← identifier
  let type ← typeAnnotation?
  return ⟨name, type, start.through (← look Cursor.previousSpan)⟩

/-- Reads the parameters of a closure. A single one needs no parentheses. -/
def binders : Parser (List Binder) := do
  if ← look (·.isAt .leftParen) then enclosed .leftParen .rightParen binder
  else return [← binder]

def closure (inner : Parser Expr) : Parser Expr := do
  let start ← look (·.peek.span)
  let parameters ← binders
  let _ ← token .arrow
  let body ← inner
  return .closure parameters body (start.through body.span)

/-- Reads a condition in parentheses behind the word `keyword`; gives the place of that word too. -/
def guarded (inner : Parser Expr) (keyword : TokenKind) : Parser (Span × Expr) := do
  let word ← token keyword
  let _ ← token .leftParen
  let condition ← inner
  let _ ← token .rightParen
  return (word.span, condition)

def conditional (inner : Parser Expr) : Parser Expr := do
  let (start, condition) ← guarded inner .kwIf
  let consequent ← inner
  match ← behind? .kwElse inner with
  | some alternative =>
    return .ifElse condition consequent alternative (start.through (← look Cursor.previousSpan))
  | none => return .ifThen condition consequent (start.through (← look Cursor.previousSpan))

def whileLoop (inner : Parser Expr) : Parser Expr := do
  let (start, condition) ← guarded inner .kwWhile
  let body ← inner
  return .loop condition body (start.through body.span)

def arguments (inner : Parser Expr) : Parser (List Expr) := enclosed .leftParen .rightParen inner

/-- Reads the arguments of a call if there are any on this line. -/
def argumentsOnLine (inner : Parser Expr) : Parser (List Expr) := do
  if ← look (·.isAtOnLine .leftParen) then arguments inner else return []

def creation (inner : Parser Expr) : Parser Expr := do
  let word ← token .kwNew
  let type ← namedType
  let arguments ← argumentsOnLine inner
  return .create type arguments (word.span.through (← look Cursor.previousSpan))

def localDefinition (inner : Parser Expr) (binding : Binding) : Parser Stmt := do
  let word ← next
  let name ← identifier
  let type ← typeAnnotation?
  let _ ← token .equals
  let initializer ← inner
  return .define binding name type initializer (word.span.through initializer.span)

def statement (inner : Parser Expr) : Parser Stmt := do
  match ← look (·.peek.kind) with
  | .binding b => localDefinition inner b
  | _ => return .eval (← inner)

def block (inner : Parser Expr) : Parser Expr := do
  let start ← look (·.peek.span)
  let body ← statements (statement inner)
  return .block body (start.through (← look Cursor.previousSpan))

def parenthesized (inner : Parser Expr) : Parser Expr := do
  let left ← token .leftParen
  match ← eat? .rightParen with
  | some right => return .unit (left.span.through right.span)
  | none =>
    let e ← inner
    let _ ← token .rightParen
    return e

def literal : Parser Expr := do
  let t ← look Cursor.peek
  match Literal.expr? t with
  | some e =>
    let _ ← next
    return e
  | none => fail (.invalidLiteral t.lexeme t.span)

def simple (inner : Parser Expr) : Parser Expr := do
  match ← look (·.peek.kind) with
  | .intLiteral | .floatLiteral | .stringLiteral | .charLiteral => literal
  | .kwTrue => return .bool true (← next).span
  | .kwFalse => return .bool false (← next).span
  | .kwNull => return .null (← next).span
  | .kwThis => return .this (← next).span
  | .identifier => return .reference (← identifier)
  | .kwNew => creation inner
  | .leftBrace => block inner
  | .leftParen => parenthesized inner
  | _ => unexpected .expression

def suffix? (inner : Parser Expr) : Parser (Option Suffix) := do
  match ← eat? .dot with
  | some _ => return some (.select (← memberName))
  | none =>
    if ← look (·.isAtOnLine .leftParen) then
      let arguments ← arguments inner
      return some (.call arguments (← look Cursor.previousSpan))
    else return none

def suffixed (inner : Parser Expr) : Parser Expr := do
  let e ← simple inner
  let suffixes ← many (suffix? inner)
  return suffixes.foldl Suffix.attach e

def unaryOperator? : Parser (Option Ident) := do
  let t ← look Cursor.peek
  if t.kind == .operator && Operator.unaryOperators.contains t.lexeme then
    let _ ← next
    return some ⟨t.lexeme, t.span⟩
  else return none

def operand (inner : Parser Expr) : Parser Expr := do
  let operators ← many unaryOperator?
  let e ← suffixed inner
  return operators.foldr (fun operator e => .unary operator e (operator.span.through e.span)) e

def operation? (inner : Parser Expr) : Parser (Option (Ident × Expr)) := do
  if ← look (·.isAtOnLine .operator) then
    let t ← next
    let e ← operand inner
    return some (⟨t.lexeme, t.span⟩, e)
  else return none

def operations (inner : Parser Expr) : Parser Expr := do
  let first ← operand inner
  let rest ← many (operation? inner)
  return Operator.tree first rest

/-- Reads an expression, where `inner` reads the expressions in it. -/
def expressionBody (inner : Parser Expr) : Parser Expr := do
  if ← look (·.isAt .kwIf) then conditional inner
  else if ← look (·.isAt .kwWhile) then whileLoop inner
  else if ← look Cursor.atClosure then closure inner
  else
    let start ← look (·.peek.span)
    let target ← operations inner
    if ← look (·.isAtOnLine .equals) then
      let _ ← next
      let value ← inner
      return .assign target value (start.through value.span)
    else return target

def expression : Parser Expr := fix expressionBody

end Parser

end Mixin
