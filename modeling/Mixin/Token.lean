import Mixin.Modifier

/-!
# Tokens

A token is a stretch of source text that the grammar treats as one piece. `TokenKind` classifies
tokens, `Token` adds the text, its place, and whether the token is the first one on its line; line
breaks end statements, so the grammar asks for it. A `TokenStream` is what a text is split into:
tokens, and one more that stands for the end of the text.
-/

namespace Mixin

inductive TypeKind where
  | «class»
  | trait
  | object
  deriving DecidableEq, Repr, Inhabited

def TypeKind.keyword : TypeKind → String
  | .«class» => "class"
  | .trait => "trait"
  | .object => "object"

/-- The two ways to bind a name to a value: for good, or so that it can be assigned. -/
inductive Binding where
  | val
  | var
  deriving DecidableEq, Repr, Inhabited

def Binding.keyword : Binding → String
  | .val => "val"
  | .var => "var"

inductive TokenKind where
  | modifier (m : Modifier)
  | typeKind (k : TypeKind)
  | binding (b : Binding)
  | kwDef
  | kwElse
  | kwExtends
  | kwFalse
  | kwIf
  | kwNew
  | kwNull
  | kwThis
  | kwTrue
  | kwWhile
  | kwWith
  | identifier
  | operator
  | intLiteral
  | floatLiteral
  | stringLiteral
  | charLiteral
  | leftParen
  | rightParen
  | leftBracket
  | rightBracket
  | leftBrace
  | rightBrace
  | comma
  | semicolon
  | dot
  | colon
  | equals
  | arrow
  | subtype
  | underscore
  | hash
  | atSign
  | error
  | eof
  deriving DecidableEq, Repr, Inhabited

namespace TokenKind

/-- The text of the tokens of a kind, where it is always the same. -/
def spelling? : TokenKind → Option String
  | modifier m => some m.keyword
  | typeKind k => some k.keyword
  | binding b => some b.keyword
  | kwDef => some "def"
  | kwElse => some "else"
  | kwExtends => some "extends"
  | kwFalse => some "false"
  | kwIf => some "if"
  | kwNew => some "new"
  | kwNull => some "null"
  | kwThis => some "this"
  | kwTrue => some "true"
  | kwWhile => some "while"
  | kwWith => some "with"
  | leftParen => some "("
  | rightParen => some ")"
  | leftBracket => some "["
  | rightBracket => some "]"
  | leftBrace => some "\x7b"
  | rightBrace => some "\x7d"
  | comma => some ","
  | semicolon => some ";"
  | dot => some "."
  | colon => some ":"
  | equals => some "="
  | arrow => some "=>"
  | subtype => some "<:"
  | underscore => some "_"
  | hash => some "#"
  | atSign => some "@"
  | _ => none

/-- How messages speak of tokens of a kind: a fixed text in backquotes, or a word for the class. -/
def describe (kind : TokenKind) : String :=
  match kind.spelling? with
  | some text => "`" ++ text ++ "`"
  | none =>
    match kind with
    | identifier => "identifier"
    | operator => "operator"
    | intLiteral => "integer literal"
    | floatLiteral => "floating point literal"
    | stringLiteral => "string literal"
    | charLiteral => "character literal"
    | eof => "end of file"
    | _ => "unrecognized input"

/-- The kinds whose tokens are spelled like names. -/
def reservedWords : List TokenKind :=
  Modifier.byWeight.map modifier ++
    [typeKind .«class», typeKind .trait, typeKind .object, binding .val, binding .var, kwDef,
     kwElse, kwExtends, kwFalse, kwIf, kwNew, kwNull, kwThis, kwTrue, kwWhile, kwWith, underscore]

/-- The kinds whose tokens are spelled like operators. -/
def reservedOperators : List TokenKind := [colon, equals, arrow, subtype, hash, atSign]

/-- The kinds whose tokens are single characters that stand in no other token. -/
def punctuation : List TokenKind :=
  [leftParen, rightParen, leftBracket, rightBracket, leftBrace, rightBrace, comma, semicolon, dot]

def ofWord (text : String) : TokenKind :=
  (reservedWords.find? (·.spelling? == some text)).getD identifier

def ofOperator (text : String) : TokenKind :=
  (reservedOperators.find? (·.spelling? == some text)).getD operator

def modifier? : TokenKind → Option Modifier
  | modifier m => some m
  | _ => none

/-- Whether tokens of this kind differ in their text, so that messages quote it. -/
def isVaried : TokenKind → Bool
  | identifier | operator | intLiteral | floatLiteral | stringLiteral | charLiteral => true
  | _ => false

end TokenKind

structure Token where
  kind : TokenKind
  lexeme : String
  span : Span
  /-- Whether a line break, or nothing at all, precedes the token. -/
  startsLine : Bool
  deriving DecidableEq, Repr, Inhabited

/-- A text in tokens: those that stand in it, and one for its end. -/
structure TokenStream where
  tokens : List Token
  final : Token
  deriving Inhabited

/-- All tokens, the one for the end last. -/
def TokenStream.toList (stream : TokenStream) : List Token := stream.tokens ++ [stream.final]

end Mixin
