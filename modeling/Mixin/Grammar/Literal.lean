import Mixin.Token
import Mixin.Tree.Expr

/-!
# The values of literals

What the text of a literal denotes. A whole number has to be less than two to the power 63, and in
strings and characters a backslash has to introduce one of seven escapes; other literals have no
value.
-/

namespace Mixin.Literal

/-- The character that a backslash and `c` denote. -/
def unescapeChar? : Char → Option Char
  | 'n' => some '\n'
  | 't' => some '\t'
  | 'r' => some '\r'
  | '0' => some '\x00'
  | '\\' => some '\\'
  | '"' => some '"'
  | '\x27' => some '\x27'
  | _ => none

def unescape? : List Char → Option (List Char)
  | [] => some []
  | ['\\'] => none
  | '\\' :: c :: rest =>
    match unescapeChar? c, unescape? rest with
    | some d, some ds => some (d :: ds)
    | _, _ => none
  | c :: rest => (unescape? rest).map (c :: ·)

/-- What stands between the first and the last character of a literal. -/
def contents (lexeme : String) : List Char := (lexeme.toList.drop 1).dropLast

/-- The value of a whole number: `lexeme` is made of digits, with the mark for long numbers behind
them at most. -/
def int? (lexeme : String) : Option Nat :=
  let value := digitsValue (lexeme.toList.takeWhile Char.isDigit)
  if value < powerOfTwo 63 then some value else none

def char? (lexeme : String) : Option Char :=
  match unescape? (contents lexeme) with
  | some [c] => some c
  | _ => none

def string? (lexeme : String) : Option String := (unescape? (contents lexeme)).map String.ofList

/-- The expression that a literal denotes. Its lexeme has to be one that scanning gives to tokens of
its kind: the quotes around strings and characters are taken for granted. -/
def expr? (t : Token) : Option Expr :=
  match t.kind with
  | .intLiteral => (int? t.lexeme).map (.int · t.span)
  | .floatLiteral => some (.float (.ofLiteral t.lexeme) t.span)
  | .stringLiteral => (string? t.lexeme).map (.string · t.span)
  | .charLiteral => (char? t.lexeme).map (.char · t.span)
  | _ => none

end Mixin.Literal
