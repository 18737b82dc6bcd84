import Mixin.Grammar.Definition

/-!
# Syntax without places

`unplaced` puts one and the same span in the place of every span. Two trees, tokens or errors that
are equal without their places differ in their places only.
-/

namespace Mixin

@[simp] theorem Span.through_topOfFile : topOfFile.through topOfFile = topOfFile := rfl

/-! ### Tokens -/

def Token.unplaced (t : Token) : Token := { t with span := .topOfFile }

theorem Token.kind_of_unplaced {t u : Token} (h : t.unplaced = u.unplaced) : t.kind = u.kind := by
  have hkind := congrArg kind h
  exact hkind

theorem Token.lexeme_of_unplaced {t u : Token} (h : t.unplaced = u.unplaced) :
    t.lexeme = u.lexeme := by
  have hlexeme := congrArg lexeme h
  exact hlexeme

def TokenStream.unplaced (stream : TokenStream) : TokenStream :=
  ⟨stream.tokens.map Token.unplaced, stream.final.unplaced⟩

def Cursor.unplaced (c : Cursor) : Cursor :=
  ⟨c.previous.map Token.unplaced, c.ahead.map Token.unplaced, c.final.unplaced⟩

def SyntaxError.unplaced : SyntaxError → SyntaxError
  | unexpectedToken expected found lexeme _ => unexpectedToken expected found lexeme .topOfFile
  | invalidCharacter lexeme _ => invalidCharacter lexeme .topOfFile
  | invalidLiteral lexeme _ => invalidLiteral lexeme .topOfFile
  | illegalModifier modifier target _ => illegalModifier modifier target .topOfFile
  | parametersNotAllowed kind _ => parametersNotAllowed kind .topOfFile

/-! ### Types and expressions -/

def Ident.unplaced (name : Ident) : Ident := { name with span := .topOfFile }

mutual

def TypeExpr.unplaced : TypeExpr → TypeExpr
  | .named name arguments _ => .named name.unplaced (TypeExpr.unplacedAll arguments) .topOfFile
  | .function parameters result _ =>
    .function (TypeExpr.unplacedAll parameters) result.unplaced .topOfFile
  | .tuple elements _ => .tuple (TypeExpr.unplacedAll elements) .topOfFile

def TypeExpr.unplacedAll : List TypeExpr → List TypeExpr
  | [] => []
  | type :: rest => type.unplaced :: TypeExpr.unplacedAll rest

end

@[simp] theorem TypeExpr.unplacedAll_eq (types : List TypeExpr) :
    unplacedAll types = types.map unplaced := by
  induction types with
  | nil => rfl
  | cons type rest ih => rw [unplacedAll, ih, List.map_cons]

@[simp] theorem TypeExpr.span_unplaced (type : TypeExpr) : type.unplaced.span = .topOfFile := by
  cases type <;> simp only [unplaced, span]

def NamedType.unplaced (type : NamedType) : NamedType :=
  ⟨type.name.unplaced, type.arguments.map TypeExpr.unplaced, .topOfFile⟩

@[simp] theorem NamedType.toTypeExpr_unplaced (type : NamedType) :
    type.unplaced.toTypeExpr = type.toTypeExpr.unplaced := by
  simp [toTypeExpr, unplaced, TypeExpr.unplaced]

def Binder.unplaced (b : Binder) : Binder :=
  ⟨b.name.unplaced, b.type.map TypeExpr.unplaced, .topOfFile⟩

mutual

def Expr.unplaced : Expr → Expr
  | .int value _ => .int value .topOfFile
  | .float value _ => .float value .topOfFile
  | .bool value _ => .bool value .topOfFile
  | .char value _ => .char value .topOfFile
  | .string value _ => .string value .topOfFile
  | .null _ => .null .topOfFile
  | .unit _ => .unit .topOfFile
  | .this _ => .this .topOfFile
  | .reference name => .reference name.unplaced
  | .select receiver name _ => .select receiver.unplaced name.unplaced .topOfFile
  | .call callee arguments _ => .call callee.unplaced (Expr.unplacedAll arguments) .topOfFile
  | .create type arguments _ => .create type.unplaced (Expr.unplacedAll arguments) .topOfFile
  | .unary operator operand _ => .unary operator.unplaced operand.unplaced .topOfFile
  | .binary operator lhs rhs _ => .binary operator.unplaced lhs.unplaced rhs.unplaced .topOfFile
  | .assign target value _ => .assign target.unplaced value.unplaced .topOfFile
  | .ifThen condition consequent _ => .ifThen condition.unplaced consequent.unplaced .topOfFile
  | .ifElse condition consequent alternative _ =>
    .ifElse condition.unplaced consequent.unplaced alternative.unplaced .topOfFile
  | .loop condition body _ => .loop condition.unplaced body.unplaced .topOfFile
  | .closure parameters body _ =>
    .closure (parameters.map Binder.unplaced) body.unplaced .topOfFile
  | .block statements _ => .block (Stmt.unplacedAll statements) .topOfFile

def Expr.unplacedAll : List Expr → List Expr
  | [] => []
  | e :: rest => e.unplaced :: Expr.unplacedAll rest

def Stmt.unplaced : Stmt → Stmt
  | .define binding name type initializer _ =>
    .define binding name.unplaced (type.map TypeExpr.unplaced) initializer.unplaced .topOfFile
  | .eval e => .eval e.unplaced

def Stmt.unplacedAll : List Stmt → List Stmt
  | [] => []
  | s :: rest => s.unplaced :: Stmt.unplacedAll rest

end

@[simp] theorem Expr.unplacedAll_eq (es : List Expr) : unplacedAll es = es.map unplaced := by
  induction es with
  | nil => rfl
  | cons e rest ih => rw [unplacedAll, ih, List.map_cons]

@[simp] theorem Stmt.unplacedAll_eq (ss : List Stmt) : unplacedAll ss = ss.map unplaced := by
  induction ss with
  | nil => rfl
  | cons s rest ih => rw [unplacedAll, ih, List.map_cons]

@[simp] theorem Expr.span_unplaced (e : Expr) : e.unplaced.span = .topOfFile := by
  cases e <;> simp only [unplaced, span, Ident.unplaced]

/-! ### Taking places away twice -/

@[simp] theorem Ident.unplaced_unplaced (name : Ident) :
    name.unplaced.unplaced = name.unplaced := rfl

mutual

@[simp] theorem TypeExpr.unplaced_unplaced : ∀ a : TypeExpr, a.unplaced.unplaced = a.unplaced
  | .named name arguments _ => by
    simp [TypeExpr.unplaced, TypeExpr.map_unplaced_unplaced arguments]
  | .function parameters result _ => by
    simp [TypeExpr.unplaced, TypeExpr.map_unplaced_unplaced parameters, result.unplaced_unplaced]
  | .tuple elements _ => by simp [TypeExpr.unplaced, TypeExpr.map_unplaced_unplaced elements]

theorem TypeExpr.map_unplaced_unplaced :
    ∀ as : List TypeExpr, (as.map unplaced).map unplaced = as.map unplaced
  | [] => rfl
  | a :: as => by
    rw [List.map_cons, List.map_cons, a.unplaced_unplaced, TypeExpr.map_unplaced_unplaced as]

end

@[simp] theorem NamedType.unplaced_unplaced (type : NamedType) :
    type.unplaced.unplaced = type.unplaced := by
  simp [unplaced, Function.comp_def]

@[simp] theorem Binder.unplaced_unplaced (b : Binder) : b.unplaced.unplaced = b.unplaced := by
  simp [unplaced, Option.map_map, Function.comp_def]

mutual

@[simp] theorem Expr.unplaced_unplaced : ∀ e : Expr, e.unplaced.unplaced = e.unplaced
  | .int .. => rfl
  | .float .. => rfl
  | .bool .. => rfl
  | .char .. => rfl
  | .string .. => rfl
  | .null _ => rfl
  | .unit _ => rfl
  | .this _ => rfl
  | .reference _ => rfl
  | .select receiver _ _ => by simp [Expr.unplaced, receiver.unplaced_unplaced]
  | .call callee arguments _ => by
    simp [Expr.unplaced, callee.unplaced_unplaced, Expr.map_unplaced_unplaced arguments]
  | .create _ arguments _ => by simp [Expr.unplaced, Expr.map_unplaced_unplaced arguments]
  | .unary _ operand _ => by simp [Expr.unplaced, operand.unplaced_unplaced]
  | .binary _ lhs rhs _ => by simp [Expr.unplaced, lhs.unplaced_unplaced, rhs.unplaced_unplaced]
  | .assign target value _ => by
    simp [Expr.unplaced, target.unplaced_unplaced, value.unplaced_unplaced]
  | .ifThen condition consequent _ => by
    simp [Expr.unplaced, condition.unplaced_unplaced, consequent.unplaced_unplaced]
  | .ifElse condition consequent alternative _ => by
    simp [Expr.unplaced, condition.unplaced_unplaced, consequent.unplaced_unplaced,
      alternative.unplaced_unplaced]
  | .loop condition body _ => by
    simp [Expr.unplaced, condition.unplaced_unplaced, body.unplaced_unplaced]
  | .closure _ body _ => by simp [Expr.unplaced, body.unplaced_unplaced, Function.comp_def]
  | .block statements _ => by simp [Expr.unplaced, Stmt.map_unplaced_unplaced statements]

theorem Expr.map_unplaced_unplaced :
    ∀ es : List Expr, (es.map Expr.unplaced).map Expr.unplaced = es.map Expr.unplaced
  | [] => rfl
  | e :: es => by
    rw [List.map_cons, List.map_cons, e.unplaced_unplaced, Expr.map_unplaced_unplaced es]

theorem Stmt.unplaced_unplaced : ∀ s : Stmt, s.unplaced.unplaced = s.unplaced
  | .define _ _ _ initializer _ => by
    simp [Stmt.unplaced, initializer.unplaced_unplaced, Option.map_map, Function.comp_def]
  | .eval e => by simp [Stmt.unplaced, e.unplaced_unplaced]

theorem Stmt.map_unplaced_unplaced :
    ∀ ss : List Stmt, (ss.map Stmt.unplaced).map Stmt.unplaced = ss.map Stmt.unplaced
  | [] => rfl
  | s :: ss => by
    rw [List.map_cons, List.map_cons, s.unplaced_unplaced, Stmt.map_unplaced_unplaced ss]

end

/-! ### Definitions -/

def ModifierList.unplaced (ms : ModifierList) : ModifierList :=
  ⟨ms.written.map fun w => (w.1, .topOfFile)⟩

def TypeParameter.unplaced (p : TypeParameter) : TypeParameter :=
  ⟨p.name.unplaced, p.variance, p.bound.map TypeExpr.unplaced, .topOfFile⟩

def Parameter.unplaced (p : Parameter) : Parameter :=
  ⟨p.modifiers.unplaced, p.binding, p.name.unplaced, p.type.unplaced, p.default.map Expr.unplaced,
    .topOfFile⟩

def Parent.unplaced (p : Parent) : Parent :=
  ⟨p.type.unplaced, p.arguments.map Expr.unplaced, .topOfFile⟩

def Initializer.unplaced : Initializer → Initializer
  | given value => given value.unplaced
  | omitted _ => omitted .topOfFile

def Field.unplaced (f : Field) : Field :=
  ⟨f.modifiers.unplaced, f.binding, f.name.unplaced, f.type.map TypeExpr.unplaced,
    f.initializer.unplaced, .topOfFile⟩

def Method.unplaced (m : Method) : Method :=
  ⟨m.modifiers.unplaced, m.name.unplaced, m.typeParameters.map TypeParameter.unplaced,
    m.clauses.map (List.map Parameter.unplaced), m.result.map TypeExpr.unplaced,
    m.body.map Expr.unplaced, .topOfFile⟩

def Member.unplaced : Member → Member
  | field f => field f.unplaced
  | method m => method m.unplaced

def TypeDef.unplaced (d : TypeDef) : TypeDef :=
  ⟨d.kind, d.modifiers.unplaced, d.name.unplaced, d.typeParameters.map TypeParameter.unplaced,
    d.parameters.map Parameter.unplaced, d.parents.map Parent.unplaced,
    d.members.map Member.unplaced, .topOfFile⟩

def Program.unplaced (p : Program) : Program := ⟨p.definitions.map TypeDef.unplaced⟩

@[simp] theorem ModifierList.unplaced_unplaced (ms : ModifierList) :
    ms.unplaced.unplaced = ms.unplaced := by
  simp [unplaced, Function.comp_def]

@[simp] theorem TypeParameter.unplaced_unplaced (p : TypeParameter) :
    p.unplaced.unplaced = p.unplaced := by
  simp [unplaced, Option.map_map, Function.comp_def]

@[simp] theorem Parameter.unplaced_unplaced (p : Parameter) : p.unplaced.unplaced = p.unplaced := by
  simp [unplaced, Option.map_map, Function.comp_def]

@[simp] theorem Parent.unplaced_unplaced (p : Parent) : p.unplaced.unplaced = p.unplaced := by
  simp [unplaced, Function.comp_def]

@[simp] theorem Method.unplaced_unplaced (m : Method) : m.unplaced.unplaced = m.unplaced := by
  simp [unplaced, Option.map_map, Function.comp_def]

@[simp] theorem ModifierList.contains_unplaced (ms : ModifierList) (m : Modifier) :
    ms.unplaced.contains m = ms.contains m := by
  simp [contains, set, unplaced, Function.comp_def]

theorem ModifierList.firstOf?_unplaced (ms : ModifierList) (rejected : ModifierSet) :
    ms.unplaced.firstOf? rejected =
      (ms.firstOf? rejected).map fun w => (w.1, .topOfFile) := by
  rw [firstOf?, unplaced, List.find?_map]
  rfl

/-! ### What is made of expressions -/

theorem Literal.expr?_unplaced (t : Token) : expr? t.unplaced = (expr? t).map Expr.unplaced := by
  obtain ⟨kind, lexeme, span, startsLine⟩ := t
  cases kind <;> simp [expr?, Token.unplaced, Option.map_map, Function.comp_def, Expr.unplaced]

theorem Expr.unplaced_foldr_unary (operators : List Ident) (e : Expr) :
    (operators.foldr
        (fun operator e => .unary operator e (operator.span.through e.span)) e).unplaced =
      (operators.map Ident.unplaced).foldr
        (fun operator e => .unary operator e (operator.span.through e.span)) e.unplaced := by
  induction operators with
  | nil => rfl
  | cons operator rest ih =>
    have hspan := congrArg span ih
    rw [span_unplaced] at hspan
    simp only [List.foldr_cons, List.map_cons, unplaced, ih, ← hspan]
    rfl

def Suffix.unplaced : Suffix → Suffix
  | select name => select name.unplaced
  | call arguments _ => call (arguments.map Expr.unplaced) .topOfFile

theorem Suffix.unplaced_attach (e : Expr) (s : Suffix) :
    (s.attach e).unplaced = s.unplaced.attach e.unplaced := by
  cases s <;> simp [attach, unplaced, Expr.unplaced, Ident.unplaced]

theorem Suffix.unplaced_foldl (e : Expr) (suffixes : List Suffix) :
    (suffixes.foldl attach e).unplaced = (suffixes.map unplaced).foldl attach e.unplaced := by
  induction suffixes generalizing e with
  | nil => rfl
  | cons s rest ih => simp only [List.foldl_cons, List.map_cons, ih, unplaced_attach]

namespace Operator

def Pending.unplaced (p : Pending) : Pending := (p.1.unplaced, p.2.unplaced)

def unplacedState (state : List Pending × Expr) : List Pending × Expr :=
  (state.1.map Pending.unplaced, state.2.unplaced)

theorem unplaced_apply (lhs : Expr) (operator : Ident) (rhs : Expr) :
    (apply lhs operator rhs).unplaced = apply lhs.unplaced operator.unplaced rhs.unplaced := by
  simp [apply, Expr.unplaced]

theorem unplaced_settle (operator : String) (pending : List Pending) (operand : Expr) :
    unplacedState (settle operator pending operand) =
      settle operator (pending.map Pending.unplaced) operand.unplaced := by
  induction pending generalizing operand with
  | nil => rfl
  | cons p pending ih =>
    obtain ⟨lhs, left⟩ := p
    have htext : left.unplaced.text = left.text := rfl
    simp only [settle, List.map_cons, Pending.unplaced, htext]
    cases bindsBefore left.text operator with
    | true => rw [if_pos rfl, if_pos rfl, ih, unplaced_apply]
    | false => rfl

theorem unplaced_push (state : List Pending × Expr) (next : Ident × Expr) :
    unplacedState (push state next) =
      push (unplacedState state) (next.1.unplaced, next.2.unplaced) := by
  have hsettle := unplaced_settle next.1.text state.1 state.2
  simp only [push, unplacedState] at hsettle ⊢
  rw [show next.1.unplaced.text = next.1.text from rfl, ← hsettle]
  rfl

theorem unplaced_finish (state : List Pending × Expr) :
    (finish state).unplaced = finish (unplacedState state) := by
  obtain ⟨pending, operand⟩ := state
  simp only [finish, unplacedState]
  induction pending generalizing operand with
  | nil => rfl
  | cons p pending ih =>
    simp only [List.foldl_cons, List.map_cons, ih, unplaced_apply]
    rfl

theorem unplaced_tree (first : Expr) (rest : List (Ident × Expr)) :
    (tree first rest).unplaced =
      tree first.unplaced (rest.map fun next => (next.1.unplaced, next.2.unplaced)) := by
  have hfold : ∀ state, unplacedState (rest.foldl push state) =
      (rest.map fun next => (next.1.unplaced, next.2.unplaced)).foldl push
        (unplacedState state) := by
    induction rest with
    | nil => exact fun _ => rfl
    | cons next rest ih =>
      intro state
      simp only [List.foldl_cons, List.map_cons, ih, unplaced_push]
  rw [tree, unplaced_finish, hfold]
  rfl

end Operator

end Mixin
