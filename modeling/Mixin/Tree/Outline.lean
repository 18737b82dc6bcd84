import Mixin.Decimal.Shortest
import Mixin.Outline
import Mixin.Text.Quoted
import Mixin.Tree.Definition

/-!
# Outlines of programs

Every node of a program as an outline: its name, its parts in a fixed order, and where it is
written.
-/

namespace Mixin

open Outline (leaf number optional pair record sequence truth wrap)

def Span.outline (s : Span) : Outline :=
  let file := match s.file with
    | .user => "UserProgram"
    | .prelude => "Prelude"
  record "InputSpan"
    [("file", leaf file), ("start", number s.start), ("end", number s.stop),
     ("line", number s.line), ("column", number s.column)]

def Ident.outline (name : Ident) : Outline :=
  record "Identifier" [("text", leaf (Text.quoteString name.text)), ("span", name.span.outline)]

/-- The outline of a set of modifiers: their names, by weight. -/
def ModifierSet.outline (s : ModifierSet) : Outline :=
  let names := (Modifier.byWeight.filter s.contains).map fun m => m.keyword.toUpper
  wrap "Modifiers" (leaf (if names.isEmpty then "0x0" else String.intercalate " | " names))

/-- The outline of modifiers: the set of them, then each as it is written. -/
def ModifierList.outline (ms : ModifierList) : Outline :=
  record "ModifierList"
    [("flags", ms.set.outline),
     ("spans", sequence (fun w => pair (ModifierSet.ofList [w.1]).outline w.2.outline) ms.written)]

mutual

def TypeExpr.outline : TypeExpr → Outline
  | .named name arguments span =>
    wrap "Named" (record "NamedTypeExpr"
      [("name", name.outline), ("arguments", .node "[" (TypeExpr.outlines arguments) "]"),
       ("span", span.outline)])
  | .function parameters result span =>
    wrap "Function" (record "FunctionTypeExpr"
      [("parameters", .node "[" (TypeExpr.outlines parameters) "]"), ("result", result.outline),
       ("span", span.outline)])
  | .tuple elements span =>
    wrap "Tuple" (record "TupleTypeExpr"
      [("elements", .node "[" (TypeExpr.outlines elements) "]"), ("span", span.outline)])

def TypeExpr.outlines : List TypeExpr → List Outline
  | [] => []
  | type :: rest => type.outline :: TypeExpr.outlines rest

end

def NamedType.outline (type : NamedType) : Outline :=
  record "NamedTypeExpr"
    [("name", type.name.outline), ("arguments", sequence TypeExpr.outline type.arguments),
     ("span", type.span.outline)]

/-- The outline of a parameter of a closure: a parameter without modifiers, binding and default. -/
def Binder.outline (b : Binder) : Outline :=
  record "Parameter"
    [("modifiers", ModifierList.empty.outline), ("binding", leaf "None"), ("name", b.name.outline),
     ("type_", optional TypeExpr.outline b.type), ("default", leaf "None"),
     ("span", b.span.outline)]

mutual

def Expr.outline : Expr → Outline
  | .int value span =>
    wrap "IntLiteral" (record "IntLiteralExpr"
      [("value", number value), ("span", span.outline)])
  | .float value span =>
    wrap "FloatLiteral" (record "FloatLiteralExpr"
      [("value", leaf value.render), ("span", span.outline)])
  | .bool value span =>
    wrap "BoolLiteral" (record "BoolLiteralExpr"
      [("value", truth value), ("span", span.outline)])
  | .char value span =>
    wrap "CharLiteral" (record "CharLiteralExpr"
      [("value", leaf (Text.quoteChar value)), ("span", span.outline)])
  | .string value span =>
    wrap "StringLiteral" (record "StringLiteralExpr"
      [("value", leaf (Text.quoteString value)), ("span", span.outline)])
  | .null span => wrap "Null" (record "NullExpr" [("span", span.outline)])
  | .unit span => wrap "Unit" (record "UnitExpr" [("span", span.outline)])
  | .this span => wrap "This" (record "ThisExpr" [("span", span.outline)])
  | .reference name =>
    wrap "Variable" (record "VariableExpr"
      [("name", name.outline), ("span", name.span.outline)])
  | .select receiver name span =>
    wrap "Select" (record "SelectExpr"
      [("receiver", receiver.outline), ("name", name.outline), ("span", span.outline)])
  | .call callee arguments span =>
    wrap "Call" (record "CallExpr"
      [("callee", callee.outline), ("arguments", .node "[" (Expr.outlines arguments) "]"),
       ("span", span.outline)])
  | .create type arguments span =>
    wrap "New" (record "NewExpr"
      [("type_", type.outline), ("arguments", .node "[" (Expr.outlines arguments) "]"),
       ("span", span.outline)])
  | .unary operator operand span =>
    wrap "UnaryOp" (record "UnaryOperatorExpr"
      [("operator", operator.outline), ("operand", operand.outline), ("span", span.outline)])
  | .binary operator lhs rhs span =>
    wrap "BinaryOp" (record "BinaryOperatorExpr"
      [("operator", operator.outline), ("lhs", lhs.outline), ("rhs", rhs.outline),
       ("span", span.outline)])
  | .assign target value span =>
    wrap "Assign" (record "AssignExpr"
      [("target", target.outline), ("value", value.outline), ("span", span.outline)])
  | .ifThen condition consequent span =>
    wrap "If" (record "IfExpr"
      [("cond", condition.outline), ("then", consequent.outline), ("else_", leaf "None"),
       ("span", span.outline)])
  | .ifElse condition consequent alternative span =>
    wrap "If" (record "IfExpr"
      [("cond", condition.outline), ("then", consequent.outline),
       ("else_", wrap "Some" alternative.outline), ("span", span.outline)])
  | .loop condition body span =>
    wrap "While" (record "WhileExpr"
      [("cond", condition.outline), ("body", body.outline), ("span", span.outline)])
  | .closure parameters body span =>
    wrap "Closure" (record "ClosureExpr"
      [("parameters", sequence Binder.outline parameters), ("body", body.outline),
       ("span", span.outline)])
  | .block statements span =>
    wrap "Block" (record "BlockExpr"
      [("statements", .node "[" (Stmt.outlines statements) "]"), ("span", span.outline)])

def Expr.outlines : List Expr → List Outline
  | [] => []
  | e :: rest => e.outline :: Expr.outlines rest

def Stmt.outline : Stmt → Outline
  | .define binding name type initializer span =>
    wrap "Local" (record "LocalDef"
      [("mutable", truth (binding == .var)), ("name", name.outline),
       ("type_", optional TypeExpr.outline type), ("initializer", initializer.outline),
       ("span", span.outline)])
  | .eval e => wrap "Expr" e.outline

def Stmt.outlines : List Stmt → List Outline
  | [] => []
  | s :: rest => s.outline :: Stmt.outlines rest

end

def TypeParameter.outline (p : TypeParameter) : Outline :=
  let variance := match p.variance with
    | .invariant => "Invariant"
    | .covariant => "Covariant"
    | .contravariant => "Contravariant"
  record "TypeParameter"
    [("name", p.name.outline), ("variance", leaf variance),
     ("upper_bound", optional TypeExpr.outline p.bound), ("span", p.span.outline)]

def Binding.outline : Binding → Outline
  | .val => leaf "Val"
  | .var => leaf "Var"

def Parameter.outline (p : Parameter) : Outline :=
  record "Parameter"
    [("modifiers", p.modifiers.outline), ("binding", optional Binding.outline p.binding),
     ("name", p.name.outline), ("type_", wrap "Some" p.type.outline),
     ("default", optional Expr.outline p.default), ("span", p.span.outline)]

def Parent.outline (p : Parent) : Outline :=
  record "ParentRef"
    [("type_", p.type.toTypeExpr.outline), ("arguments", sequence Expr.outline p.arguments),
     ("span", p.span.outline)]

/-- The outline of an initializer. One that was left out shows as an empty expression. -/
def Initializer.outline : Initializer → Outline
  | .given value => value.outline
  | .omitted span => wrap "Empty" (record "EmptyExpr" [("span", span.outline)])

def Field.outline (f : Field) : Outline :=
  record "FieldDef"
    [("modifiers", f.modifiers.outline), ("mutable", truth (f.binding == .var)),
     ("name", f.name.outline), ("type_", optional TypeExpr.outline f.type),
     ("initializer", wrap "Some" f.initializer.outline), ("span", f.span.outline)]

def Method.outline (m : Method) : Outline :=
  record "FunctionDef"
    [("modifiers", m.modifiers.outline), ("name", m.name.outline),
     ("type_parameters", sequence TypeParameter.outline m.typeParameters),
     ("parameter_lists", sequence (sequence Parameter.outline) m.clauses),
     ("return_type", optional TypeExpr.outline m.result),
     ("body", optional Expr.outline m.body), ("signature_span", m.signature.outline)]

def Member.outline : Member → Outline
  | .field f => wrap "Field" f.outline
  | .method m => wrap "Method" m.outline

def TypeDef.outline (d : TypeDef) : Outline :=
  let kind := match d.kind with
    | .«class» => "Class"
    | .trait => "Trait"
    | .object => "Object"
  record "TypeDef"
    [("kind", leaf kind), ("modifiers", d.modifiers.outline), ("name", d.name.outline),
     ("type_parameters", sequence TypeParameter.outline d.typeParameters),
     ("parameters", sequence Parameter.outline d.parameters),
     ("parents", sequence Parent.outline d.parents),
     ("members", sequence Member.outline d.members), ("signature_span", d.signature.outline)]

def Program.outline (p : Program) : Outline :=
  record "Program" [("definitions", sequence TypeDef.outline p.definitions)]

end Mixin
