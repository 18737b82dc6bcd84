import Mixin.Text.Blank
import Mixin.Text.Word
import Mixin.Token

/-!
# The lexicon

Which texts are tokens, and which text between tokens is skipped. A `LexicalRule` measures the
longest text of its class at the head of the input and says of what kind that text is. Of all rules
the one that measures most wins, and among equals the first (`longestMatch`). Before every token a
gap is skipped: white space and comments, as many as follow one another (`gapLength`).
-/

namespace Mixin.Lexicon

open Text

/-! ### Gaps -/

/-- How many characters a block comment takes behind its opening mark, its closing mark included. -/
def blockCommentLength? : List Char → Option Nat
  | [] => none
  | c :: rest =>
    if c = '*' ∧ rest.head? = some '/' then some 2
    else (blockCommentLength? rest).map (· + 1)

/-- The length of the blank or the comment at the head of the input, zero if there is neither. A
block comment that is never closed is no comment. -/
def gapPieceLength : List Char → Nat
  | '/' :: '/' :: rest => 2 + (rest.takeWhile (· ≠ '\n')).length
  | '/' :: '*' :: rest => ((blockCommentLength? rest).map (2 + ·)).getD 0
  | c :: _ => if isBlank c then 1 else 0
  | [] => 0

def gapLength (input : List Char) : Nat :=
  match input with
  | [] => 0
  | c :: rest =>
    if gapPieceLength (c :: rest) = 0 then 0
    else gapPieceLength (c :: rest) + gapLength ((c :: rest).drop (gapPieceLength (c :: rest)))
termination_by input.length
decreasing_by
  simp only [List.length_drop, List.length_cons]
  omega

/-! ### Rules -/

/-- A class of tokens. -/
structure LexicalRule where
  /-- The length of the longest text of the class at the head of the input, zero if there is
  none. -/
  length : List Char → Nat
  /-- The kind of a text of the class. -/
  kind : String → TokenKind

def digitsLength (input : List Char) : Nat := (input.takeWhile Char.isDigit).length

def wordLength : List Char → Nat
  | [] => 0
  | c :: rest => if isWordStart c then 1 + (rest.takeWhile isWordContinue).length else 0

def operatorLength (input : List Char) : Nat := (input.takeWhile isOperatorChar).length

/-- The length of a name that goes on as an operator: a name of two characters or more that ends in
an underscore, with an operator right behind it. -/
def mixedWordLength (input : List Char) : Nat :=
  let word := wordLength input
  let operator := operatorLength (input.drop word)
  if 2 ≤ word ∧ input[word - 1]? = some '_' ∧ 0 < operator then word + operator else 0

/-- The length of an exponent, mark and sign included, zero if no digits follow them. -/
def exponentLength : List Char → Nat
  | mark :: rest =>
    if mark = 'e' ∨ mark = 'E' then
      let sign := if rest.head? = some '+' ∨ rest.head? = some '-' then 1 else 0
      let digits := digitsLength (rest.drop sign)
      if 0 < digits then 1 + sign + digits else 0
    else 0
  | [] => 0

def floatLength (input : List Char) : Nat :=
  let whole := digitsLength input
  match input.drop whole with
  | '.' :: rest =>
    let fraction := digitsLength rest
    if 0 < whole ∧ 0 < fraction then
      whole + 1 + fraction + exponentLength (rest.drop fraction)
    else 0
  | _ => 0

/-- The length of a whole number, the mark for long ones included. -/
def intLength (input : List Char) : Nat :=
  let digits := digitsLength input
  if 0 < digits then
    match input.drop digits with
    | c :: _ => if c = 'l' ∨ c = 'L' then digits + 1 else digits
    | [] => digits
  else 0

/-- How many characters a string takes behind its opening quote, its closing quote included. -/
def stringTailLength? : List Char → Option Nat
  | [] => none
  | '"' :: _ => some 1
  | '\n' :: _ => none
  | ['\\'] => none
  | '\\' :: c :: rest => if c = '\n' then none else (stringTailLength? rest).map (· + 2)
  | _ :: rest => (stringTailLength? rest).map (· + 1)

def stringLength : List Char → Nat
  | '"' :: rest => ((stringTailLength? rest).map (· + 1)).getD 0
  | _ => 0

def charLength : List Char → Nat
  | '\x27' :: '\\' :: c :: '\x27' :: _ => if c = '\n' then 0 else 4
  | '\x27' :: c :: '\x27' :: _ => if c = '\x27' ∨ c = '\\' ∨ c = '\n' then 0 else 3
  | _ => 0

/-- The class of the one text with which a kind of token is spelled. -/
def LexicalRule.ofSpelling (kind : TokenKind) : LexicalRule where
  length input :=
    match kind.spelling? with
    | some text => if text.toList.isPrefixOf input then text.length else 0
    | none => 0
  kind _ := kind

def rules : List LexicalRule :=
  [⟨wordLength, TokenKind.ofWord⟩,
   ⟨mixedWordLength, fun _ => .identifier⟩,
   ⟨floatLength, fun _ => .floatLiteral⟩,
   ⟨intLength, fun _ => .intLiteral⟩,
   ⟨stringLength, fun _ => .stringLiteral⟩,
   ⟨charLength, fun _ => .charLiteral⟩,
   ⟨operatorLength, TokenKind.ofOperator⟩] ++
  TokenKind.punctuation.map LexicalRule.ofSpelling

/-- The rule in `rules` that measures most at the head of the input, the first among equals, with
its measure; `none` if none measures anything. -/
def longestMatch (rules : List LexicalRule) (input : List Char) : Option (Nat × LexicalRule) :=
  match rules with
  | [] => none
  | rule :: rest =>
    match longestMatch rest input with
    | some best =>
      if 0 < rule.length input ∧ best.1 ≤ rule.length input then some (rule.length input, rule)
      else some best
    | none => if 0 < rule.length input then some (rule.length input, rule) else none

theorem longestMatch_pos {rules : List LexicalRule} {input : List Char} {best : Nat × LexicalRule}
    (h : longestMatch rules input = some best) : 0 < best.1 := by
  induction rules with
  | nil => simp [longestMatch] at h
  | cons rule rest ih =>
    simp only [longestMatch] at h
    split at h
    · split at h
      · cases h
        omega
      · cases h
        exact ih (by assumption)
    · split at h
      · cases h
        assumption
      · cases h

/-- The length and the kind of the token at the head of `input`, which begins with no gap. A
character that begins no token is a token by itself, an erroneous one. -/
def tokenAt (input : List Char) : Nat × TokenKind :=
  match longestMatch rules input with
  | some (length, rule) => (length, rule.kind (String.ofList (input.take length)))
  | none => (1, .error)

theorem tokenAt_pos (input : List Char) : 0 < (tokenAt input).1 := by
  unfold tokenAt
  split
  · rename_i h
    exact longestMatch_pos h
  · exact Nat.one_pos

end Mixin.Lexicon
