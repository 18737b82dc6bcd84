import Mixin.Analysis.Registry

/-!
# Going through a program

`Program.visits` lists everything that stands in a program, in the order in which it is written:
types, parameters, fields, methods, statements and expressions, each before what stands in it. With
each definition goes its identifier.
-/

namespace Mixin

structure Owner where
  id : ClassId
  kind : TypeKind
  deriving DecidableEq, Repr, Inhabited

/-- What a parameter belongs to. -/
inductive ParameterOwner where
  | type (owner : Owner) (field : Option FieldId)
  | method (id : MethodId)
  | closure
  deriving DecidableEq, Repr, Inhabited

/-- Something that stands in a program. -/
inductive Visit where
  | type (d : TypeDef) (id : ClassId)
  | method (m : Method) (id : MethodId) (owner : Owner)
  | field (f : Field) (id : FieldId) (owner : Owner)
  | parameter (name : Ident) (owner : ParameterOwner)
  | expr (e : Expr)
  | omitted (span : Span)
  | block (statements : List Stmt)
  | define (name : Ident)

mutual

def Expr.visits (e : Expr) : List Visit :=
  .expr e ::
    match e with
    | .select receiver _ _ => receiver.visits
    | .call callee arguments _ => callee.visits ++ exprListVisits arguments
    | .create _ arguments _ => exprListVisits arguments
    | .unary _ operand _ => operand.visits
    | .binary _ lhs rhs _ => lhs.visits ++ rhs.visits
    | .assign target value _ => target.visits ++ value.visits
    | .ifThen condition consequent _ => condition.visits ++ consequent.visits
    | .ifElse condition consequent alternative _ =>
      condition.visits ++ consequent.visits ++ alternative.visits
    | .loop condition body _ => condition.visits ++ body.visits
    | .closure parameters body _ =>
      parameters.map (fun p => .parameter p.name .closure) ++ body.visits
    | .block statements _ => .block statements :: stmtListVisits statements
    | _ => []

def Stmt.visits : Stmt → List Visit
  | .define _ name _ initializer _ => .define name :: initializer.visits
  | .eval e => e.visits

def exprListVisits : List Expr → List Visit
  | [] => []
  | e :: rest => e.visits ++ exprListVisits rest

def stmtListVisits : List Stmt → List Visit
  | [] => []
  | s :: rest => s.visits ++ stmtListVisits rest

end

def Parameter.visits (p : Parameter) (owner : ParameterOwner) : List Visit :=
  .parameter p.name owner :: (p.default.map Expr.visits).getD []

/-- The value of a field, or the place where it was left out. -/
def Initializer.visits : Initializer → List Visit
  | given value => value.visits
  | omitted span => [.omitted span]

def Member.visits (r : Registry) (owner : Owner) : Member → Except Unanalyzed (List Visit)
  | field f => do
    let id ← r.fieldOf f
    return .field f id owner :: f.initializer.visits
  | method m => do
    let id ← r.methodOf m
    return .method m id owner ::
      (m.parameters.flatMap (·.visits (.method id)) ++ (m.body.map Expr.visits).getD [])

def TypeDef.visits (r : Registry) (d : TypeDef) : Except Unanalyzed (List Visit) := do
  let id ← r.classOf d
  let owner : Owner := ⟨id, d.kind⟩
  let parameters := d.parameters.flatMap fun p => p.visits (.type owner (r.parameterField? p))
  let arguments := d.parents.flatMap fun p => exprListVisits p.arguments
  let members ← d.members.mapM (Member.visits r owner)
  return .type d id :: (parameters ++ arguments ++ members.flatten)

def Program.visits (r : Registry) (p : Program) : Except Unanalyzed (List Visit) := do
  return (← p.definitions.mapM (TypeDef.visits r)).flatten

def visitsOfAll (r : Registry) (units : List Program) : Except Unanalyzed (List Visit) := do
  return (← units.mapM (Program.visits r)).flatten

end Mixin
