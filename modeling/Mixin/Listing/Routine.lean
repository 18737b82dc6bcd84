import Mixin.Listing.Lowering
import Mixin.Listing.Writer
import Mixin.Symbol.Info

/-!
# Constructors, methods and closures in a listing

A `Routine` is one entry of a type in a listing: a heading and, unless it is abstract, instructions.
The closures of a type are numbered in the order in which they are met, and their bodies are lowered
in the order of their numbers behind all methods; a body that is lowered may bring up further
closures.
-/

namespace Mixin

structure Body where
  locals : Nat
  code : List Instr

/-- A constructor, a method or the body of a closure in a listing. -/
structure Routine where
  heading : String
  body : Option Body

namespace Routine

def calls (r : Routine) : List Writer.Call :=
  match r.body with
  | none => [.write (r.heading ++ "\n")]
  | some body =>
    [.write (r.heading ++ " \x7b\n"), .indent] ++
      (if 0 < body.locals then [.write (".locals (" ++ toString body.locals ++ ")\n")] else []) ++
      body.code.map (fun i => .write (i.render ++ "\n")) ++ [.dedent, .write "\x7d\n"]

def parameterText (parameters : List (String × Option TypeExpr)) : String :=
  "(" ++ String.intercalate ", " (parameters.map fun p => MethodInfo.annotated p.1 p.2) ++ ")"

end Routine

/-- The counters at the beginning of a body, if closures have been numbered up to `closures`. -/
def Counters.start (closures : Nat) : Counters := ⟨0, 0, closures⟩

/-- A finished body: the instructions, and the closures met in them. -/
def Lowered.finish (a : Lowered) : Body × List Lambda :=
  (⟨a.next.locals, a.code ++ [.ret]⟩, a.closures)

def lowerBody (s : Surroundings) (parameters : List String) (e : Expr) (closures : Nat) :
    Body × List Lambda :=
  (lower ⟨s, parameters⟩ [] e (.start closures)).finish

theorem lambdaSizes_lowerBody (s : Surroundings) (parameters : List String) (e : Expr)
    (closures : Nat) : lambdaSizes (lowerBody s parameters e closures).2 = e.closureCount :=
  lambdaSizes_lower _ _ _ _

def ModifierList.visibility (ms : ModifierList) : String :=
  if ms.contains .«private» then "private"
  else if ms.contains .«protected» then "family"
  else "public"

def Parameter.heading (p : Parameter) : String × Option TypeExpr := (p.name.text, some p.type)

def Method.heading (m : Method) : String :=
  MethodInfo.annotated
    (".method " ++ m.modifiers.visibility ++ " " ++ (if m.isAbstract then "abstract " else "") ++
      m.name.text ++ Routine.parameterText (m.parameters.map Parameter.heading))
    m.result

/-- Routines, the closures met in them, and how many closures have been numbered behind them. -/
structure Routines where
  list : List Routine
  closures : List Lambda
  count : Nat

def Routines.add (rs : Routines) (heading : String) (body : Body × List Lambda) : Routines :=
  ⟨rs.list ++ [⟨heading, some body.1⟩], rs.closures ++ body.2, rs.count + body.2.length⟩

def Routines.addMethod (s : Surroundings) (rs : Routines) (m : Method) : Routines :=
  match m.body with
  | some body =>
    rs.add m.heading (lowerBody s (m.parameters.map fun p => p.name.text) body rs.count)
  | none => { rs with list := rs.list ++ [⟨m.heading, none⟩] }

def Lambda.heading (l : Lambda) (index : Nat) : String :=
  ".method private " ++ Instr.closureName index ++
    Routine.parameterText (l.parameters.map fun p => (p.name.text, p.type))

/-- The routines for the `pending` closures and for those met in them. The first of them has the
number `index`; `count` closures have been numbered so far. -/
def closureRoutines (s : Surroundings) (index count : Nat) (pending : List Lambda) : List Routine :=
  match pending with
  | [] => []
  | l :: rest =>
    let body := lowerBody s (l.parameters.map fun p => p.name.text) l.body count
    ⟨l.heading index, some body.1⟩ ::
      closureRoutines s (index + 1) (count + body.2.length) (rest ++ body.2)
termination_by lambdaSizes pending
decreasing_by
  simp only [lambdaSizes_append, lambdaSizes_cons, lambdaSizes_lowerBody]
  omega

end Mixin
