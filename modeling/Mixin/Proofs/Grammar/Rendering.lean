import Mathlib.Data.List.TakeWhile
import Mathlib.Data.Nat.Digits.Lemmas
import Mixin.Decimal.Shortest
import Mixin.Proofs.Grammar.Leaves
import Mixin.Proofs.Tree.Unplaced

/-!
# Rendering

The tokens with which a syntax tree is written in full on one line: every expression inside another
one in parentheses, the parameters of function types and closures always in parentheses, bodies
behind an equals sign, bindings spelled out, and semicolons between statements, members and
definitions. The tokens are without places.
-/

namespace Mixin

/-! ### Literals -/

namespace Literal

def escaped (c : Char) : List Char :=
  if c = '\n' then ['\\', 'n']
  else if c = '\t' then ['\\', 't']
  else if c = '\r' then ['\\', 'r']
  else if c = '\x00' then ['\\', '0']
  else if c = '\\' ∨ c = '"' ∨ c = '\x27' then ['\\', c]
  else [c]

def quoted (quote : Char) (cs : List Char) : String :=
  String.ofList (quote :: (cs.flatMap escaped ++ [quote]))

theorem unescape?_cons {c : Char} (hc : c ≠ '\\') (rest : List Char) :
    unescape? (c :: rest) = (unescape? rest).map (c :: ·) := by
  rw [unescape?]
  · exact fun h _ => hc h
  · exact fun _ _ h _ => hc h

theorem unescape?_escaped (c : Char) (rest : List Char) :
    unescape? (escaped c ++ rest) = (unescape? rest).map (c :: ·) := by
  have hpair : ∀ x y : Char, unescapeChar? x = some y →
      unescape? ('\\' :: x :: rest) = (unescape? rest).map (y :: ·) := by
    intro x y hxy
    rw [unescape?, hxy]
    cases unescape? rest <;> rfl
  by_cases hplain : c = '\n' ∨ c = '\t' ∨ c = '\r' ∨ c = '\x00' ∨ c = '\\' ∨ c = '"' ∨ c = '\x27'
  · rcases hplain with rfl | rfl | rfl | rfl | rfl | rfl | rfl <;> exact hpair _ _ rfl
  · simp only [not_or] at hplain
    have hsingle : escaped c = [c] := by simp [escaped, hplain]
    rw [hsingle]
    exact unescape?_cons hplain.2.2.2.2.1 rest

theorem unescape?_flatMap (cs : List Char) : unescape? (cs.flatMap escaped) = some cs := by
  induction cs with
  | nil => rfl
  | cons c cs ih => rw [List.flatMap_cons, unescape?_escaped, ih, Option.map_some]

theorem contents_quoted (quote : Char) (cs : List Char) :
    contents (quoted quote cs) = cs.flatMap escaped := by
  simp [contents, quoted, String.toList_ofList]

theorem string?_quoted (s : String) : string? (quoted '"' s.toList) = some s := by
  rw [string?, contents_quoted, unescape?_flatMap]
  simp

theorem char?_quoted (c : Char) : char? (quoted '\x27' [c]) = some c := by
  rw [char?, contents_quoted, unescape?_flatMap]

theorem int?_digits {n : Nat} (hn : n < powerOfTwo 63) :
    int? (String.ofList (Nat.toDigits 10 n)) = some n := by
  have hall : ∀ c ∈ Nat.toDigits 10 n, c.isDigit = true :=
    fun c hc => Nat.isDigit_of_mem_toDigits (by decide) (by decide) hc
  have hvalue : digitsValue (Nat.toDigits 10 n) = n := by
    have h := Nat.ofDigitChars_ten_toDigits (n := n)
    rw [Nat.ofDigitChars_eq_foldl] at h
    exact h
  rw [int?, String.toList_ofList, List.takeWhile_eq_self_iff.mpr hall, hvalue, if_pos hn]

end Literal

/-! ### Tokens -/

namespace Rendering

def plain (kind : TokenKind) (lexeme : String) : Token := ⟨kind, lexeme, .topOfFile, false⟩

def mark (kind : TokenKind) : Token := plain kind (kind.spelling?.getD "")

def word (name : Ident) : Token := plain .identifier name.text

def sign (name : Ident) : Token := plain .operator name.text

/-- A name of a member, which may be made of operator characters. -/
def memberWord (name : Ident) : Token :=
  if name.text.toList.all Text.isOperatorChar then sign name else word name

def parens (ts : List Token) : List Token := mark .leftParen :: (ts ++ [mark .rightParen])

def separated (kind : TokenKind) : List (List Token) → List Token
  | [] => []
  | [ts] => ts
  | ts :: us :: rest => ts ++ mark kind :: separated kind (us :: rest)

def bracketed : List (List Token) → List Token
  | [] => []
  | tss => mark .leftBracket :: (separated .comma tss ++ [mark .rightBracket])

def argued : List (List Token) → List Token
  | [] => []
  | tss => parens (separated .comma tss)

def braced (tss : List (List Token)) : List Token :=
  mark .leftBrace :: (separated .semicolon tss ++ [mark .rightBrace])

def behind (kind : TokenKind) : Option (List Token) → List Token
  | none => []
  | some ts => mark kind :: ts

/-! ### Types and expressions -/

mutual

def ofType : TypeExpr → List Token
  | .named name arguments _ => word name :: bracketed (ofTypes arguments)
  | .function parameters result _ =>
    parens (separated .comma (ofTypes parameters)) ++ mark .arrow :: ofType result
  | .tuple elements _ => parens (separated .comma (ofTypes elements))

def ofTypes : List TypeExpr → List (List Token)
  | [] => []
  | type :: rest => ofType type :: ofTypes rest

end

def ofNamed (type : NamedType) : List Token :=
  word type.name :: bracketed (type.arguments.map ofType)

def ofBinder (b : Binder) : List Token := word b.name :: behind .colon (b.type.map ofType)

mutual

def ofExpr : Expr → List Token
  | .int value _ => [plain .intLiteral (String.ofList (Nat.toDigits 10 value))]
  | .float value _ => [plain .floatLiteral value.render]
  | .bool value _ => [mark (if value then .kwTrue else .kwFalse)]
  | .char value _ => [plain .charLiteral (Literal.quoted '\x27' [value])]
  | .string value _ => [plain .stringLiteral (Literal.quoted '"' value.toList)]
  | .null _ => [mark .kwNull]
  | .unit _ => parens []
  | .this _ => [mark .kwThis]
  | .reference name => [word name]
  | .select receiver name _ => parens (ofExpr receiver) ++ [mark .dot, memberWord name]
  | .call callee arguments _ =>
    parens (ofExpr callee) ++ parens (separated .comma (ofOperands arguments))
  | .create type arguments _ => mark .kwNew :: (ofNamed type ++ argued (ofOperands arguments))
  | .unary operator operand _ => sign operator :: parens (ofExpr operand)
  | .binary operator lhs rhs _ => parens (ofExpr lhs) ++ sign operator :: parens (ofExpr rhs)
  | .assign target value _ => parens (ofExpr target) ++ mark .equals :: parens (ofExpr value)
  | .ifThen condition consequent _ =>
    mark .kwIf :: (parens (parens (ofExpr condition)) ++ parens (ofExpr consequent))
  | .ifElse condition consequent alternative _ =>
    mark .kwIf :: (parens (parens (ofExpr condition)) ++
      (parens (ofExpr consequent) ++ mark .kwElse :: parens (ofExpr alternative)))
  | .loop condition body _ =>
    mark .kwWhile :: (parens (parens (ofExpr condition)) ++ parens (ofExpr body))
  | .closure parameters body _ =>
    parens (separated .comma (parameters.map ofBinder)) ++ mark .arrow :: parens (ofExpr body)
  | .block statements _ => braced (ofStmts statements)

def ofOperands : List Expr → List (List Token)
  | [] => []
  | e :: rest => parens (ofExpr e) :: ofOperands rest

def ofStmt : Stmt → List Token
  | .define binding name type initializer _ =>
    mark (.binding binding) :: word name ::
      (behind .colon (type.map ofType) ++ mark .equals :: parens (ofExpr initializer))
  | .eval e => parens (ofExpr e)

def ofStmts : List Stmt → List (List Token)
  | [] => []
  | s :: rest => ofStmt s :: ofStmts rest

end

theorem ofTypes_eq (types : List TypeExpr) : ofTypes types = types.map ofType := by
  induction types with
  | nil => rfl
  | cons type rest ih => rw [ofTypes, ih, List.map_cons]

theorem ofOperands_eq (es : List Expr) : ofOperands es = es.map fun e => parens (ofExpr e) := by
  induction es with
  | nil => rfl
  | cons e rest ih => rw [ofOperands, ih, List.map_cons]

theorem ofStmts_eq (ss : List Stmt) : ofStmts ss = ss.map ofStmt := by
  induction ss with
  | nil => rfl
  | cons s rest ih => rw [ofStmts, ih, List.map_cons]

/-! ### Definitions -/

def ofModifiers (ms : ModifierList) : List Token := ms.written.map fun w => mark (.modifier w.1)

def ofVariance : Variance → List Token
  | .invariant => []
  | v => [plain .operator v.sigil]

def ofTypeParameter (p : TypeParameter) : List Token :=
  ofVariance p.variance ++ word p.name :: behind .subtype (p.bound.map ofType)

def ofParameter (p : Parameter) : List Token :=
  ofModifiers p.modifiers ++ (p.binding.toList.map (fun b => mark (.binding b)) ++
    word p.name :: mark .colon :: (ofType p.type ++ behind .equals (p.default.map ofExpr)))

def ofParent (p : Parent) : List Token := ofNamed p.type ++ argued (p.arguments.map ofExpr)

def ofParents : List Parent → List Token
  | [] => []
  | first :: rest =>
    mark .kwExtends :: (ofParent first ++ rest.flatMap fun p => mark .kwWith :: ofParent p)

def ofInitializer : Initializer → List Token
  | .given value => mark .equals :: ofExpr value
  | .omitted _ => []

def ofField (f : Field) : List Token :=
  ofModifiers f.modifiers ++ mark (.binding f.binding) :: word f.name ::
    (behind .colon (f.type.map ofType) ++ ofInitializer f.initializer)

def ofMethod (m : Method) : List Token :=
  ofModifiers m.modifiers ++ mark .kwDef :: memberWord m.name ::
    (bracketed (m.typeParameters.map ofTypeParameter) ++
      (m.clauses.flatMap (fun ps => parens (separated .comma (ps.map ofParameter))) ++
        (behind .colon (m.result.map ofType) ++ behind .equals (m.body.map ofExpr))))

def ofMember : Member → List Token
  | .field f => ofField f
  | .method m => ofMethod m

def ofMembers : List Member → List Token
  | [] => []
  | ms => braced (ms.map ofMember)

def ofTypeDef (d : TypeDef) : List Token :=
  ofModifiers d.modifiers ++ mark (.typeKind d.kind) :: word d.name ::
    (bracketed (d.typeParameters.map ofTypeParameter) ++
      (argued (d.parameters.map ofParameter) ++ (ofParents d.parents ++ ofMembers d.members)))

end Rendering

def Program.rendered (p : Program) : List Token :=
  Rendering.separated .semicolon (p.definitions.map Rendering.ofTypeDef)

end Mixin
