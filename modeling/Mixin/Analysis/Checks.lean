import Mixin.Analysis.Basic
import Mixin.Analysis.Visit

/-!
# Checks

Two analyses that only report. The check of the structure asks that every field in a body has a
value to start with. The check of the obligations asks that a type which has to be complete
implements every method it inherits without a body, and declares no such method itself.
-/

namespace Mixin

namespace Visit

def typeName? : Visit → Option String
  | type d _ => some d.name.text
  | _ => none

/-- A field without a value to start with. -/
def bareField? : Visit → Option Field
  | field f _ _ => if f.initializer.isGiven then none else some f
  | _ => none

/-- The fields without a value to start with, each with the name of the type entered last before
it. -/
def bareFields (owner : String) : List Visit → List (Field × String)
  | [] => []
  | v :: rest =>
    let current := v.typeName?.getD owner
    (v.bareField?.toList.map fun f => (f, current)) ++ bareFields current rest

/-- The methods that a type inherits without a body and does not implement, if it has to be
complete. -/
def outstanding (t : SymbolTable) (id : ClassId) : List MethodInfo :=
  if (t.classInfo id).mayBeIncomplete then []
  else ((t.abstractMembers id).map t.methodInfo).filter fun m => m.owner ≠ id

def obligations (t : SymbolTable) : Visit → List Diagnostic
  | type d id =>
    match d.kind with
    | .trait => []
    | _ =>
      (outstanding t id).map fun m =>
        .unimplementedMember (t.classInfo id).sketch m.sketch (t.classInfo m.owner).name
  | method _ id _ =>
    let m := t.methodInfo id
    let owner := t.classInfo m.owner
    if m.isAbstract && !owner.mayBeIncomplete then
      [.abstractInConcrete m.sketch owner.sketch]
    else []
  | _ => []

def obligationEvents (t : SymbolTable) : Visit → List Event
  | type d id =>
    match d.kind with
    | .trait => []
    | _ =>
      (outstanding t id).map fun m =>
        .memberUnimplemented (t.classInfo id).name m.signature.render
  | _ => []

end Visit

namespace Analysis

def checkStructure (a : Analysis) (units : List Program) : Except Unanalyzed Analysis :=
  match visitsOfAll a.registry units with
  | .error u => .error u
  | .ok visits =>
    let found := Visit.bareFields "" visits
    .ok ((a.report (found.map fun (f, owner) =>
          .missingInitializer f.binding f.name f.type owner)).log
        (found.map fun (f, owner) => .initializerMissing f.name.text owner))

def checkObligations (a : Analysis) (units : List Program) : Except Unanalyzed Analysis :=
  match visitsOfAll a.registry units with
  | .error u => .error u
  | .ok visits =>
    .ok ((a.report (visits.flatMap (Visit.obligations a.symbols))).log
      (visits.flatMap (Visit.obligationEvents a.symbols)))

end Analysis

end Mixin
