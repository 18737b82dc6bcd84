import Mixin.Grammar.Expr
import Mixin.Token.Scan
import Mixin.Tree.Definition

/-!
# Reading definitions

Type definitions with their parameters, parents and members, and whole programs. An error ends the
definition in which it stands; reading goes on at the next definition that begins a line, so one run
finds errors in several definitions.
-/

namespace Mixin

namespace Parser

def variance : Parser Variance := do
  let t ← look Cursor.peek
  if t.kind == .operator then
    match t.lexeme with
    | "+" =>
      let _ ← next
      return .covariant
    | "-" =>
      let _ ← next
      return .contravariant
    | _ => unexpected .typeParameter
  else return .invariant

def typeParameter : Parser TypeParameter := do
  let start ← look (·.peek.span)
  let variance ← variance
  let name ← identifier
  let bound ← behind? .subtype typeExpr
  return ⟨name, variance, bound, start.through (← look Cursor.previousSpan)⟩

/-- Reads type parameters if there are any on this line. -/
def typeParameters : Parser (List TypeParameter) := bracketedOnLine typeParameter

def parameterTail (start : Span) (modifiers : ModifierList) (binding : Option Binding) :
    Parser Parameter := do
  let name ← identifier
  let _ ← token .colon
  let type ← typeExpr
  let default ← behind? .equals expression
  return ⟨modifiers, binding, name, type, default, start.through (← look Cursor.previousSpan)⟩

/-- Reads a parameter of a class. Those of a case class are values unless they say otherwise. -/
def classParameter (isCase : Bool) : Parser Parameter := do
  let start ← look (·.peek.span)
  let modifiers ← modifiers
  rejectModifiers modifiers
    (ModifierSet.ofList [.«private», .«protected», .override]).complement .parameters
  match ← look (·.peek.kind) with
  | .binding b =>
    let _ ← next
    parameterTail start modifiers (some b)
  | _ => parameterTail start modifiers (if isCase then some .val else none)

def methodParameter : Parser Parameter := do
  let start ← look (·.peek.span)
  let modifiers ← modifiers
  rejectModifiers modifiers (ModifierSet.ofList [.implicit]).complement .parameters
  parameterTail start modifiers none

/-- Reads the parameters of a class if there are any on this line, and refuses them on other
types. -/
def classParameters (kind : TypeKind) (isCase : Bool) : Parser (List Parameter) := do
  if ← look (·.isAtOnLine .leftParen) then
    match kind with
    | .«class» => enclosed .leftParen .rightParen (classParameter isCase)
    | _ => fail (.parametersNotAllowed kind (← look (·.peek.span)))
  else return []

/-- Reads a clause of method parameters if there is one on this line. -/
def methodClause? : Parser (Option (List Parameter)) := do
  if ← look (·.isAtOnLine .leftParen) then
    return some (← enclosed .leftParen .rightParen methodParameter)
  else return none

def parent : Parser Parent := do
  let type ← namedType
  let arguments ← argumentsOnLine expression
  return ⟨type, arguments, type.span.through (← look Cursor.previousSpan)⟩

def parents : Parser (List Parent) := do
  match ← behind? .kwExtends parent with
  | some first =>
    let others ← many (behind? .kwWith parent)
    return first :: others
  | none => return []

def initializer : Parser Initializer := do
  match ← behind? .equals expression with
  | some value => return .given value
  | none => return .omitted (← look Cursor.afterPrevious)

def checkFieldModifiers (binding : Binding) (modifiers : ModifierList) : Parser Unit :=
  match binding with
  | .var => rejectModifiers modifiers (ModifierSet.ofList [.lazy]) .mutableFields
  | .val => pure ()

def field (start : Span) (modifiers : ModifierList) (binding : Binding) : Parser Field := do
  let _ ← next
  checkFieldModifiers binding modifiers
  let name ← identifier
  let type ← typeAnnotation?
  let initializer ← initializer
  return ⟨modifiers, binding, name, type, initializer, start.through (← look Cursor.previousSpan)⟩

def methodBody : Parser (Option Expr) := do
  match ← behind? .equals expression with
  | some body => return some body
  | none =>
    if ← look (·.isAtOnLine .leftBrace) then return some (← block expression)
    else return none

def method (start : Span) (modifiers : ModifierList) : Parser Method := do
  let _ ← token .kwDef
  let name ← memberName
  let typeParameters ← typeParameters
  let clauses ← many methodClause?
  let result ← typeAnnotation?
  let signature := start.through (← look Cursor.previousSpan)
  let body ← methodBody
  return ⟨modifiers, name, typeParameters, clauses, result, body, signature⟩

def member : Parser Member := do
  let start ← look (·.peek.span)
  let modifiers ← modifiers
  rejectModifiers modifiers (ModifierSet.ofList [.case, .sealed]) .members
  match ← look (·.peek.kind) with
  | .binding b => return .field (← field start modifiers b)
  | .kwDef =>
    rejectModifiers modifiers (ModifierSet.ofList [.lazy]) .methods
    return .method (← method start modifiers)
  | _ => unexpected (.oneOf [.binding .val, .binding .var, .kwDef])

/-- Reads the members of a type if they begin on this line. -/
def members : Parser (List Member) := do
  if ← look (·.isAtOnLine .leftBrace) then statements member else return []

def checkTypeModifiers (kind : TypeKind) (modifiers : ModifierList) : Parser Unit := do
  rejectModifiers modifiers (ModifierSet.ofList [.lazy, .override]) .types
  match kind with
  | .«class» => pure ()
  | .trait => rejectModifiers modifiers (ModifierSet.ofList [.case]) .traits
  | .object => rejectModifiers modifiers (ModifierSet.ofList [.abstract, .sealed]) .objects

def typeKind : Parser TypeKind := do
  match ← look (·.peek.kind) with
  | .typeKind k =>
    let _ ← next
    return k
  | _ => unexpected (.oneOf [.typeKind .«class», .typeKind .trait, .typeKind .object])

def typeDef : Parser TypeDef := do
  let start ← look (·.peek.span)
  let modifiers ← modifiers
  let kind ← typeKind
  checkTypeModifiers kind modifiers
  let name ← identifier
  let typeParameters ← typeParameters
  let parameters ← classParameters kind (modifiers.contains .case)
  let parents ← parents
  let members ← members
  statementEnd .eof
  let span := start.through name.span
  return ⟨kind, modifiers, name, typeParameters, parameters, parents, members, span⟩

end Parser

/-- What reading a whole stream has found so far. -/
structure Program.Reading where
  definitions : List TypeDef
  errors : List SyntaxError

/-- Reads definitions up to the end of the text, and goes on behind those that are in error. -/
def Program.readFrom (c : Cursor) : Program.Reading :=
  let start := c.skipWhile fun t => t.kind == .semicolon
  if start.isAt .eof then ⟨[], []⟩
  else
    match Parser.typeDef.run start with
    | .done definition rest =>
      if rest.ahead.length < c.ahead.length then
        let others := readFrom rest
        { others with definitions := definition :: others.definitions }
      else ⟨[definition], []⟩
    | .failed error rest =>
      if rest.recover.ahead.length < c.ahead.length then
        let others := readFrom rest.recover
        { others with errors := error :: others.errors }
      else ⟨[], [error]⟩
    | .stuck => ⟨[], [start.unexpected .statementEnd]⟩
termination_by c.ahead.length

def Program.ofTokens (stream : TokenStream) : Except (List SyntaxError) Program :=
  let reading := readFrom (.ofStream stream)
  if reading.errors.isEmpty then .ok ⟨reading.definitions⟩ else .error reading.errors

def Program.ofText (file : SourceFile) (text : String) : Except (List SyntaxError) Program :=
  ofTokens (.ofText file text)

end Mixin
