import Mixin.Listing.Instr
import Mixin.Tree.Expr

/-!
# From expressions to instructions

`lower` turns an expression into instructions that leave its value on the stack. Local names get
slots that are never used twice in one body. A closure is not lowered where it stands: it gets a
number there, and is handed back to be lowered as a body of its own.
-/

namespace Mixin

/-- A closure that still has to be lowered. -/
structure Lambda where
  parameters : List Binder
  body : Expr

/-- The names that the methods of a type can refer to, and those that the runtime library
supplies. -/
structure Surroundings where
  fields : List String
  methods : List String
  objects : List String
  runtimeTypes : List String
  runtimeLibrary : String

def inLibrary (library name : String) : String := "[" ++ library ++ "]" ++ name

def Surroundings.typeReference (s : Surroundings) (name : String) : String :=
  if name ∈ s.runtimeTypes then inLibrary s.runtimeLibrary name else name

/-- What does not change within one body. -/
structure Frame where
  surroundings : Surroundings
  parameters : List String

/-- The local names that can be referred to, with their slots, the innermost first. -/
abbrev Scope := List (String × Nat)

/-- The next numbers to be given out. -/
structure Counters where
  locals : Nat
  labels : Nat
  closures : Nat
  deriving DecidableEq, Repr, Inhabited

/-- Instructions, the closures met in them, and the numbers still free behind them. -/
structure Lowered where
  code : List Instr
  closures : List Lambda
  next : Counters

namespace Lowered

def emit (code : List Instr) (k : Counters) : Lowered := ⟨code, [], k⟩

def append (a b : Lowered) : Lowered := ⟨a.code ++ b.code, a.closures ++ b.closures, b.next⟩

def andThen (a : Lowered) (code : List Instr) : Lowered := { a with code := a.code ++ code }

def behind (code : List Instr) (a : Lowered) : Lowered := { a with code := code ++ a.code }

end Lowered

namespace Frame

/-- The number of the argument that a name denotes. Argument zero is the receiver. -/
def argument? (f : Frame) (name : String) : Option Nat :=
  (f.parameters.idxOf? name).map (· + 1)

/-- The instructions that load what a name denotes: a local, an argument, a field, the result of a
method without arguments, an object, or something unknown. -/
def load (f : Frame) (scope : Scope) (name : String) : List Instr :=
  match scope.lookup name, f.argument? name with
  | some slot, _ => [.loadLocal slot]
  | none, some index => [.loadArg index]
  | none, none =>
    if name ∈ f.surroundings.fields then [.loadArg 0, .loadField name]
    else if name ∈ f.surroundings.methods then [.loadArg 0, .callVirtual name 0]
    else if name ∈ f.surroundings.objects then [.loadInstance name]
    else [.loadSymbol name]

/-- Whether a call of a name calls a method of the current object. -/
def callsOwnMethod (f : Frame) (scope : Scope) (name : String) : Bool :=
  name ∈ f.surroundings.methods && (scope.lookup name).isNone && (f.argument? name).isNone

/-- The instructions that store a value under a name: those before the value and those behind it. -/
def store (f : Frame) (scope : Scope) (name : String) : List Instr × List Instr :=
  match scope.lookup name, f.argument? name with
  | some slot, _ => ([], [.storeLocal slot])
  | none, some index => ([], [.storeArg index])
  | none, none =>
    if name ∈ f.surroundings.fields then ([.loadArg 0], [.storeField name])
    else ([], [.storeSymbol name])

def functionType (f : Frame) (arity : Nat) : String :=
  inLibrary f.surroundings.runtimeLibrary ("Function" ++ toString arity)

end Frame

mutual

def lower (f : Frame) (scope : Scope) : Expr → Counters → Lowered
  | .int value _, k => .emit [.loadInt value] k
  | .float value _, k => .emit [.loadFloat value] k
  | .bool value _, k => .emit [.loadBool value] k
  | .char value _, k => .emit [.loadChar value] k
  | .string value _, k => .emit [.loadString value] k
  | .null _, k => .emit [.loadNull] k
  | .unit _, k => .emit [.loadUnit] k
  | .this _, k => .emit [.loadArg 0] k
  | .reference name, k => .emit (f.load scope name.text) k
  | .select receiver name _, k => (lower f scope receiver k).andThen [.loadMember name.text]
  | .call (.select receiver name _) arguments _, k =>
    let target := lower f scope receiver k
    (target.append (lowerList f scope arguments target.next)).andThen
      [.callVirtual name.text arguments.length]
  | .call (.reference name) arguments _, k =>
    let (start, method) :=
      if f.callsOwnMethod scope name.text then ([.loadArg 0], name.text)
      else (f.load scope name.text, "apply")
    ((lowerList f scope arguments k).behind start).andThen [.callVirtual method arguments.length]
  | .call callee arguments _, k =>
    let target := lower f scope callee k
    (target.append (lowerList f scope arguments target.next)).andThen
      [.callVirtual "apply" arguments.length]
  | .create type arguments _, k =>
    (lowerList f scope arguments k).andThen
      [.create (f.surroundings.typeReference type.name.text) arguments.length]
  | .unary operator operand _, k =>
    (lower f scope operand k).andThen [.callVirtual ("unary_" ++ operator.text) 0]
  | .binary operator lhs rhs _, k =>
    let left := lower f scope lhs k
    (left.append (lower f scope rhs left.next)).andThen [.callVirtual operator.text 1]
  | .assign (.reference name) value _, k =>
    let (before, after) := f.store scope name.text
    ((lower f scope value k).behind before).andThen (after ++ [.loadUnit])
  | .assign (.select receiver name _) value _, k =>
    let target := lower f scope receiver k
    (target.append (lower f scope value target.next)).andThen [.storeMember name.text, .loadUnit]
  | .assign target value _, k =>
    let updated := lower f scope target k
    (updated.append (lower f scope value updated.next)).andThen
      [.callVirtual "update" 1, .pop, .loadUnit]
  | .ifThen condition consequent _, k =>
    let test := (lower f scope condition { k with labels := k.labels + 2 }).andThen
      [.branchFalse k.labels]
    (test.append (lower f scope consequent test.next)).andThen
      [.branch (k.labels + 1), .label k.labels, .loadUnit, .label (k.labels + 1)]
  | .ifElse condition consequent alternative _, k =>
    let test := (lower f scope condition { k with labels := k.labels + 2 }).andThen
      [.branchFalse k.labels]
    let chosen := (test.append (lower f scope consequent test.next)).andThen
      [.branch (k.labels + 1), .label k.labels]
    (chosen.append (lower f scope alternative chosen.next)).andThen [.label (k.labels + 1)]
  | .loop condition body _, k =>
    let test := ((lower f scope condition { k with labels := k.labels + 2 }).behind
      [.label k.labels]).andThen [.branchFalse (k.labels + 1)]
    (test.append (lower f scope body test.next)).andThen
      [.pop, .branch k.labels, .label (k.labels + 1), .loadUnit]
  | .closure parameters body _, k =>
    ⟨[.loadClosure k.closures, .create (f.functionType parameters.length) 1],
     [⟨parameters, body⟩], { k with closures := k.closures + 1 }⟩
  | .block statements _, k => lowerStatements f scope statements k

def lowerList (f : Frame) (scope : Scope) : List Expr → Counters → Lowered
  | [], k => .emit [] k
  | e :: rest, k =>
    let first := lower f scope e k
    first.append (lowerList f scope rest first.next)

/-- Instructions for the statements of a block. They leave the value of the last one on the stack,
or the unit value if it has none. -/
def lowerStatements (f : Frame) (scope : Scope) : List Stmt → Counters → Lowered
  | [], k => .emit [.loadUnit] k
  | [.eval e], k => lower f scope e k
  | .eval e :: rest, k =>
    let first := (lower f scope e k).andThen [.pop]
    first.append (lowerStatements f scope rest first.next)
  | .define _ name _ initializer _ :: rest, k =>
    let first := lower f scope initializer k
    let slot := first.next.locals
    (first.andThen [.storeLocal slot]).append
      (lowerStatements f ((name.text, slot) :: scope) rest
        { first.next with locals := slot + 1 })

end

/-! ### Closures -/

mutual

/-- How many closures stand in an expression, those in closures included. -/
def Expr.closureCount : Expr → Nat
  | .select receiver _ _ => receiver.closureCount
  | .call callee arguments _ => callee.closureCount + closureCountList arguments
  | .create _ arguments _ => closureCountList arguments
  | .unary _ operand _ => operand.closureCount
  | .binary _ lhs rhs _ => lhs.closureCount + rhs.closureCount
  | .assign target value _ => target.closureCount + value.closureCount
  | .ifThen condition consequent _ => condition.closureCount + consequent.closureCount
  | .ifElse condition consequent alternative _ =>
    condition.closureCount + consequent.closureCount + alternative.closureCount
  | .loop condition body _ => condition.closureCount + body.closureCount
  | .closure _ body _ => body.closureCount + 1
  | .block statements _ => closureCountStatements statements
  | _ => 0

def closureCountList : List Expr → Nat
  | [] => 0
  | e :: rest => e.closureCount + closureCountList rest

def closureCountStatements : List Stmt → Nat
  | [] => 0
  | .eval e :: rest => e.closureCount + closureCountStatements rest
  | .define _ _ _ initializer _ :: rest => initializer.closureCount + closureCountStatements rest

end

/-- How many closures a closure is, itself and those in it. -/
def Lambda.size (l : Lambda) : Nat := l.body.closureCount + 1

def lambdaSizes : List Lambda → Nat
  | [] => 0
  | l :: ls => l.size + lambdaSizes ls

@[simp] theorem lambdaSizes_nil : lambdaSizes [] = 0 := rfl

@[simp] theorem lambdaSizes_cons (l : Lambda) (ls : List Lambda) :
    lambdaSizes (l :: ls) = l.body.closureCount + 1 + lambdaSizes ls := rfl

@[simp] theorem lambdaSizes_append (ls ms : List Lambda) :
    lambdaSizes (ls ++ ms) = lambdaSizes ls + lambdaSizes ms := by
  induction ls with
  | nil => simp
  | cons l ls ih => simp [ih, Nat.add_assoc]

/-- Lowering hands back every closure of an expression, directly or inside another one. -/
theorem lambdaSizes_lower_all (f : Frame) :
    (∀ scope e k, lambdaSizes (lower f scope e k).closures = e.closureCount) ∧
    (∀ scope ss k,
      lambdaSizes (lowerStatements f scope ss k).closures = closureCountStatements ss) ∧
    (∀ scope es k, lambdaSizes (lowerList f scope es k).closures = closureCountList es) := by
  apply lower.mutual_induct f <;> intros <;>
    simp_all +zetaDelta [Nat.add_assoc, lower, lowerList, lowerStatements, Expr.closureCount,
      closureCountList, closureCountStatements, Lowered.emit, Lowered.append, Lowered.andThen,
      Lowered.behind]

theorem lambdaSizes_lower (f : Frame) (scope : Scope) (e : Expr) (k : Counters) :
    lambdaSizes (lower f scope e k).closures = e.closureCount :=
  (lambdaSizes_lower_all f).1 scope e k

end Mixin
