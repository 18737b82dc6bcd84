import Mixin.Decimal.Binary64
import Mixin.Token
import Mixin.Tree.TypeExpr

/-!
# Expressions

Expressions and the statements of which blocks consist. Every node carries its span. Parentheses
leave no trace: the span of an expression in parentheses does not include them.
-/

namespace Mixin

/-- A parameter of a closure. Its type may be left out. -/
structure Binder where
  name : Ident
  type : Option TypeExpr
  span : Span
  deriving Inhabited

mutual

inductive Expr where
  | int (value : Nat) (span : Span)
  | float (value : Binary64) (span : Span)
  | bool (value : Bool) (span : Span)
  | char (value : Char) (span : Span)
  | string (value : String) (span : Span)
  | null (span : Span)
  | unit (span : Span)
  | this (span : Span)
  | reference (name : Ident)
  | select (receiver : Expr) (name : Ident) (span : Span)
  | call (callee : Expr) (arguments : List Expr) (span : Span)
  | create (type : NamedType) (arguments : List Expr) (span : Span)
  | unary (operator : Ident) (operand : Expr) (span : Span)
  | binary (operator : Ident) (lhs rhs : Expr) (span : Span)
  | assign (target value : Expr) (span : Span)
  | ifThen (condition consequent : Expr) (span : Span)
  | ifElse (condition consequent alternative : Expr) (span : Span)
  | loop (condition body : Expr) (span : Span)
  | closure (parameters : List Binder) (body : Expr) (span : Span)
  | block (statements : List Stmt) (span : Span)

inductive Stmt where
  | define (binding : Binding) (name : Ident) (type : Option TypeExpr) (initializer : Expr)
      (span : Span)
  | eval (expr : Expr)

end

instance : Inhabited Expr := ⟨.null default⟩

instance : Inhabited Stmt := ⟨.eval default⟩

def Expr.span : Expr → Span
  | int _ span => span
  | float _ span => span
  | bool _ span => span
  | char _ span => span
  | string _ span => span
  | null span => span
  | unit span => span
  | this span => span
  | reference name => name.span
  | select _ _ span => span
  | call _ _ span => span
  | create _ _ span => span
  | unary _ _ span => span
  | binary _ _ _ span => span
  | assign _ _ span => span
  | ifThen _ _ span => span
  | ifElse _ _ _ span => span
  | loop _ _ span => span
  | closure _ _ span => span
  | block _ span => span

end Mixin
