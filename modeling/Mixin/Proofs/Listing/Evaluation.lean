import Mixin.Listing.Lowering
import Mixin.Proofs.Listing.Machine

/-!
# The meaning of expressions

Evaluation from left to right, with arguments evaluated before a call. Locals are visible in the
rest of the block in which they are defined. A closure is known by its number: the closures of an
expression are numbered from left to right, those inside closures left out.
-/

namespace Mixin

def Expr.constant? : Expr → Option Constant
  | .int value _ => some (.int value)
  | .float value _ => some (.float value)
  | .bool value _ => some (.bool value)
  | .char value _ => some (.char value)
  | .string value _ => some (.string value)
  | .null _ => some .null
  | .unit _ => some .unit
  | _ => none

mutual

/-- How many closures stand in an expression, those inside closures left out. -/
def Expr.outerClosures : Expr → Nat
  | .select receiver _ _ => receiver.outerClosures
  | .call callee arguments _ => callee.outerClosures + outerClosuresList arguments
  | .create _ arguments _ => outerClosuresList arguments
  | .unary _ operand _ => operand.outerClosures
  | .binary _ lhs rhs _ => lhs.outerClosures + rhs.outerClosures
  | .assign target value _ => target.outerClosures + value.outerClosures
  | .ifThen condition consequent _ => condition.outerClosures + consequent.outerClosures
  | .ifElse condition consequent alternative _ =>
    condition.outerClosures + consequent.outerClosures + alternative.outerClosures
  | .loop condition body _ => condition.outerClosures + body.outerClosures
  | .closure _ _ _ => 1
  | .block statements _ => outerClosuresStatements statements
  | _ => 0

def outerClosuresList : List Expr → Nat
  | [] => 0
  | e :: rest => e.outerClosures + outerClosuresList rest

def outerClosuresStatements : List Stmt → Nat
  | [] => 0
  | .eval e :: rest => e.outerClosures + outerClosuresStatements rest
  | .define _ _ _ initializer _ :: rest =>
    initializer.outerClosures + outerClosuresStatements rest

end

/-! ### Names -/

variable {V S : Type}

/-- What changes while an expression is evaluated: the values of the visible locals, the innermost
first, those of the parameters, and the state. -/
structure Config (V S : Type) where
  locals : List (String × V)
  parameters : List (String × V)
  state : S

def rebind (name : String) (v : V) : List (String × V) → List (String × V)
  | [] => []
  | (x, w) :: rest => if name = x then (x, v) :: rest else (x, w) :: rebind name v rest

def Config.Unbound (c : Config V S) (name : String) : Prop :=
  c.locals.lookup name = none ∧ c.parameters.lookup name = none

/-- The value that a name denotes, and the state behind: the innermost local, otherwise the first
parameter, otherwise a field, otherwise the result of a method without arguments, otherwise an
object, otherwise a symbol. -/
inductive Reads (P : Primitives V S) (s : Surroundings) (self : V) (c : Config V S)
    (name : String) : V → S → Prop
  | ofLocal {v} : c.locals.lookup name = some v → Reads P s self c name v c.state
  | ofParameter {v} : c.locals.lookup name = none → c.parameters.lookup name = some v →
      Reads P s self c name v c.state
  | ofField {v t} : c.Unbound name → name ∈ s.fields →
      P.loadField name self c.state = some (v, t) → Reads P s self c name v t
  | ofMethod {v t} : c.Unbound name → name ∉ s.fields → name ∈ s.methods →
      P.call name self [] c.state = some (v, t) → Reads P s self c name v t
  | ofObject {v t} : c.Unbound name → name ∉ s.fields → name ∉ s.methods → name ∈ s.objects →
      P.loadInstance name c.state = some (v, t) → Reads P s self c name v t
  | ofSymbol {v t} : c.Unbound name → name ∉ s.fields → name ∉ s.methods → name ∉ s.objects →
      P.loadSymbol name c.state = some (v, t) → Reads P s self c name v t

/-- What storing a value under a name leads to. -/
inductive Writes (P : Primitives V S) (s : Surroundings) (self : V) (c : Config V S)
    (name : String) (v : V) : Config V S → Prop
  | ofLocal {w} : c.locals.lookup name = some w →
      Writes P s self c name v { c with locals := rebind name v c.locals }
  | ofParameter {w} : c.locals.lookup name = none → c.parameters.lookup name = some w →
      Writes P s self c name v { c with parameters := rebind name v c.parameters }
  | ofField {t} : c.Unbound name → name ∈ s.fields →
      P.storeField name self v c.state = some t → Writes P s self c name v { c with state := t }
  | ofSymbol {t} : c.Unbound name → name ∉ s.fields →
      P.storeSymbol name v c.state = some t → Writes P s self c name v { c with state := t }

/-! ### Evaluation -/

/-- Whether a call of an expression applies its value: it is neither a selection nor the name of a
method of the current object. -/
def Expr.Applied (s : Surroundings) (c : Config V S) (callee : Expr) : Prop :=
  (∀ receiver name span, callee ≠ .select receiver name span) ∧
    ∀ name, callee = .reference name → ¬(name.text ∈ s.methods ∧ c.Unbound name.text)

mutual

/-- In the surroundings `s` of the current object `self`, with closures numbered from `n` on, an
expression turns one configuration into another and has a value. -/
inductive Evaluates (P : Primitives V S) (s : Surroundings) (self : V) :
    Nat → Expr → Config V S → V → Config V S → Prop
  | constant {n e c x} : e.constant? = some x → Evaluates P s self n e c (P.constant x) c
  | this {n span c} : Evaluates P s self n (.this span) c self c
  | reference {n name c v t} : Reads P s self c name.text v t →
      Evaluates P s self n (.reference name) c v { c with state := t }
  | select {n receiver name span c r c₁ v t} : Evaluates P s self n receiver c r c₁ →
      P.loadMember name.text r c₁.state = some (v, t) →
      Evaluates P s self n (.select receiver name span) c v { c₁ with state := t }
  | callMember {n receiver name span arguments span' c r c₁ vs c₂ v t} :
      Evaluates P s self n receiver c r c₁ →
      EvaluatesAll P s self (n + receiver.outerClosures) arguments c₁ vs c₂ →
      P.call name.text r vs c₂.state = some (v, t) →
      Evaluates P s self n (.call (.select receiver name span) arguments span') c v
        { c₂ with state := t }
  | callOwn {n name arguments span c vs c₁ v t} : name.text ∈ s.methods → c.Unbound name.text →
      EvaluatesAll P s self n arguments c vs c₁ →
      P.call name.text self vs c₁.state = some (v, t) →
      Evaluates P s self n (.call (.reference name) arguments span) c v { c₁ with state := t }
  | callValue {n callee arguments span c r c₁ vs c₂ v t} : callee.Applied s c →
      Evaluates P s self n callee c r c₁ →
      EvaluatesAll P s self (n + callee.outerClosures) arguments c₁ vs c₂ →
      P.call "apply" r vs c₂.state = some (v, t) →
      Evaluates P s self n (.call callee arguments span) c v { c₂ with state := t }
  | create {n type arguments span c vs c₁ v t} : EvaluatesAll P s self n arguments c vs c₁ →
      P.create (s.typeReference type.name.text) vs c₁.state = some (v, t) →
      Evaluates P s self n (.create type arguments span) c v { c₁ with state := t }
  | unary {n operator operand span c r c₁ v t} : Evaluates P s self n operand c r c₁ →
      P.call ("unary_" ++ operator.text) r [] c₁.state = some (v, t) →
      Evaluates P s self n (.unary operator operand span) c v { c₁ with state := t }
  | binary {n operator lhs rhs span c r c₁ w c₂ v t} : Evaluates P s self n lhs c r c₁ →
      Evaluates P s self (n + lhs.outerClosures) rhs c₁ w c₂ →
      P.call operator.text r [w] c₂.state = some (v, t) →
      Evaluates P s self n (.binary operator lhs rhs span) c v { c₂ with state := t }
  | assignName {n name value span c v c₁ c₂} : Evaluates P s self n value c v c₁ →
      Writes P s self c₁ name.text v c₂ →
      Evaluates P s self n (.assign (.reference name) value span) c (P.constant .unit) c₂
  | assignMember {n receiver name span value span' c r c₁ v c₂ t} :
      Evaluates P s self n receiver c r c₁ →
      Evaluates P s self (n + receiver.outerClosures) value c₁ v c₂ →
      P.storeMember name.text r v c₂.state = some t →
      Evaluates P s self n (.assign (.select receiver name span) value span') c
        (P.constant .unit) { c₂ with state := t }
  | ifThenTrue {n condition consequent span c b c₁ v c₂} :
      Evaluates P s self n condition c b c₁ → P.truth b c₁.state = true →
      Evaluates P s self (n + condition.outerClosures) consequent c₁ v c₂ →
      Evaluates P s self n (.ifThen condition consequent span) c v c₂
  | ifThenFalse {n condition consequent span c b c₁} :
      Evaluates P s self n condition c b c₁ → P.truth b c₁.state = false →
      Evaluates P s self n (.ifThen condition consequent span) c (P.constant .unit) c₁
  | ifElseTrue {n condition consequent alternative span c b c₁ v c₂} :
      Evaluates P s self n condition c b c₁ → P.truth b c₁.state = true →
      Evaluates P s self (n + condition.outerClosures) consequent c₁ v c₂ →
      Evaluates P s self n (.ifElse condition consequent alternative span) c v c₂
  | ifElseFalse {n condition consequent alternative span c b c₁ v c₂} :
      Evaluates P s self n condition c b c₁ → P.truth b c₁.state = false →
      Evaluates P s self (n + condition.outerClosures + consequent.outerClosures) alternative
        c₁ v c₂ →
      Evaluates P s self n (.ifElse condition consequent alternative span) c v c₂
  | loopEnd {n condition body span c b c₁} :
      Evaluates P s self n condition c b c₁ → P.truth b c₁.state = false →
      Evaluates P s self n (.loop condition body span) c (P.constant .unit) c₁
  | loopNext {n condition body span c b c₁ w c₂ v c₃} :
      Evaluates P s self n condition c b c₁ → P.truth b c₁.state = true →
      Evaluates P s self (n + condition.outerClosures) body c₁ w c₂ →
      Evaluates P s self n (.loop condition body span) c₂ v c₃ →
      Evaluates P s self n (.loop condition body span) c v c₃
  | closure {n parameters body span c g t v t'} : P.closure n c.state = some (g, t) →
      P.create (inLibrary s.runtimeLibrary ("Function" ++ toString parameters.length)) [g] t =
        some (v, t') →
      Evaluates P s self n (.closure parameters body span) c v { c with state := t' }
  | block {n statements span c v c₁} : Completes P s self n statements c v c₁ →
      Evaluates P s self n (.block statements span) c v c₁

/-- Expressions are evaluated one after the other. -/
inductive EvaluatesAll (P : Primitives V S) (s : Surroundings) (self : V) :
    Nat → List Expr → Config V S → List V → Config V S → Prop
  | nil {n c} : EvaluatesAll P s self n [] c [] c
  | cons {n e rest c v c₁ vs c₂} : Evaluates P s self n e c v c₁ →
      EvaluatesAll P s self (n + e.outerClosures) rest c₁ vs c₂ →
      EvaluatesAll P s self n (e :: rest) c (v :: vs) c₂

/-- The statements of a block are run one after the other. The value is that of the last one, if it
is an expression. A local is gone behind the block. -/
inductive Completes (P : Primitives V S) (s : Surroundings) (self : V) :
    Nat → List Stmt → Config V S → V → Config V S → Prop
  | nil {n c} : Completes P s self n [] c (P.constant .unit) c
  | last {n e c v c₁} : Evaluates P s self n e c v c₁ → Completes P s self n [.eval e] c v c₁
  | next {n e rest c w c₁ v c₂} : rest ≠ [] → Evaluates P s self n e c w c₁ →
      Completes P s self (n + e.outerClosures) rest c₁ v c₂ →
      Completes P s self n (.eval e :: rest) c v c₂
  | define {n binding name type initializer span rest c w c₁ v c₂} :
      Evaluates P s self n initializer c w c₁ →
      Completes P s self (n + initializer.outerClosures) rest
        { c₁ with locals := (name.text, w) :: c₁.locals } v c₂ →
      Completes P s self n (.define binding name type initializer span :: rest) c v
        { c₂ with locals := c₂.locals.tail }

end

end Mixin
