import Mixin.Tree.Expr

/-!
# Operators between operands

The first character of an operator decides how strongly it binds. Operators that end in a colon, and
compound assignments, group to the right, all others to the left. `Operator.tree` turns operands
with operators between them into one expression: it goes through them from left to right and keeps
the operators whose right operand is not complete yet, the innermost first.
-/

namespace Mixin.Operator

/-- Compound assignments such as `+=`. -/
def isAssignment (operator : String) : Bool :=
  operator.toList.getLast? == some '=' && operator.toList.head? != some '=' &&
    operator ∉ ["<=", ">=", "!="]

def precedence (operator : String) : Nat :=
  if isAssignment operator then 0
  else
    match operator.toList.head? with
    | some '|' => 2
    | some '^' => 3
    | some '&' => 4
    | some '=' | some '!' => 5
    | some '<' | some '>' => 6
    | some ':' => 7
    | some '+' | some '-' => 8
    | some '*' | some '/' | some '%' => 9
    | _ => 10

/-- Whether operators of equal strength behind this one group to the right. -/
def isRightAssociative (operator : String) : Bool :=
  operator.toList.getLast? == some ':' || isAssignment operator

def unaryOperators : List String := ["-", "+", "!", "~"]

/-- Whether the operand between `left` and `right` belongs to `left`. -/
def bindsBefore (left right : String) : Bool :=
  precedence right < precedence left ||
    (precedence right == precedence left && !isRightAssociative left)

def apply (lhs : Expr) (operator : Ident) (rhs : Expr) : Expr :=
  .binary operator lhs rhs (lhs.span.through rhs.span)

/-- An operator whose right operand is not complete yet, with its left operand. -/
abbrev Pending := Expr × Ident

/-- Completes the pending operators to which `operand` belongs when `operator` follows it. -/
def settle (operator : String) : List Pending → Expr → List Pending × Expr
  | [], operand => ([], operand)
  | (lhs, left) :: pending, operand =>
    if bindsBefore left.text operator then settle operator pending (apply lhs left operand)
    else ((lhs, left) :: pending, operand)

def push (state : List Pending × Expr) (next : Ident × Expr) : List Pending × Expr :=
  let settled := settle next.1.text state.1 state.2
  ((settled.2, next.1) :: settled.1, next.2)

def finish (state : List Pending × Expr) : Expr :=
  state.1.foldl (fun operand (lhs, operator) => apply lhs operator operand) state.2

/-- The expression for `first` and the operators and operands behind it. -/
def tree (first : Expr) (rest : List (Ident × Expr)) : Expr := finish (rest.foldl push ([], first))

end Mixin.Operator
